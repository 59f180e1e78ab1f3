import Mathlib.Data.List.Basic
import Mathlib.Data.List.Induction
import Mathlib.Data.List.Nodup

set_option autoImplicit false

/-! # Association lists built by a history of puts

`put` overwrites the value of a key in place, or adds a new key at the front. After a history of
puts the list holds each key of the history once, with the value of the last put of that key. -/

namespace Xv6.Lib.Assoc

variable {K V : Type} [DecidableEq K]

/-- The keys of the list, in order. -/
def keys (l : List (K × V)) : List K := l.map Prod.fst

def put (l : List (K × V)) (e : K × V) : List (K × V) :=
  if e.1 ∈ keys l then l.map fun e' => if e'.1 = e.1 then e else e' else e :: l

/-- The list after a history of puts into an empty one. -/
def putAll (h : List (K × V)) : List (K × V) := h.foldl put []

/-- The last put of `k` in a history. -/
def lastPut (h : List (K × V)) (k : K) : Option V :=
  (h.filter fun e => e.1 = k).getLast?.map Prod.snd

theorem putAll_append_singleton (h : List (K × V)) (e : K × V) :
    putAll (h ++ [e]) = put (putAll h) e := by
  unfold putAll
  rw [List.foldl_append]
  rfl

theorem keys_put_of_mem {l : List (K × V)} {e : K × V} (h : e.1 ∈ keys l) :
    keys (put l e) = keys l := by
  unfold put
  rw [if_pos h]
  unfold keys
  rw [List.map_map]
  apply List.map_congr_left
  intro e' _
  by_cases he : e'.1 = e.1
  · simp [he]
  · simp [he]

theorem keys_put_of_not_mem {l : List (K × V)} {e : K × V} (h : e.1 ∉ keys l) :
    keys (put l e) = e.1 :: keys l := by
  unfold put
  rw [if_neg h]
  rfl

theorem mem_keys_put {l : List (K × V)} {e : K × V} {k : K} :
    k ∈ keys (put l e) ↔ k ∈ keys l ∨ k = e.1 := by
  by_cases h : e.1 ∈ keys l
  · rw [keys_put_of_mem h]
    constructor
    · exact Or.inl
    · rintro (hk | rfl)
      · exact hk
      · exact h
  · rw [keys_put_of_not_mem h, List.mem_cons]
    exact Or.comm

theorem nodup_keys_put {l : List (K × V)} {e : K × V} (h : (keys l).Nodup) :
    (keys (put l e)).Nodup := by
  by_cases he : e.1 ∈ keys l
  · rw [keys_put_of_mem he]
    exact h
  · rw [keys_put_of_not_mem he]
    exact List.nodup_cons.2 ⟨he, h⟩

theorem nodup_keys_putAll (h : List (K × V)) : (keys (putAll h)).Nodup := by
  induction h using List.reverseRecOn with
  | nil => exact List.nodup_nil
  | append_singleton h e ih =>
      rw [putAll_append_singleton]
      exact nodup_keys_put ih

theorem mem_keys_putAll {h : List (K × V)} {k : K} : k ∈ keys (putAll h) ↔ k ∈ keys h := by
  induction h using List.reverseRecOn with
  | nil => rfl
  | append_singleton h e ih =>
      rw [putAll_append_singleton, mem_keys_put, ih]
      simp [keys]

theorem mem_put {l : List (K × V)} {e e' : K × V} (h : e' ∈ put l e) :
    e' = e ∨ (e'.1 ≠ e.1 ∧ e' ∈ l) := by
  unfold put at h
  split at h
  · obtain ⟨e₀, he₀, rfl⟩ := List.mem_map.1 h
    by_cases hk : e₀.1 = e.1
    · exact Or.inl (if_pos hk)
    · rw [if_neg hk]
      exact Or.inr ⟨hk, he₀⟩
  · next hno =>
    rcases List.mem_cons.1 h with rfl | hl
    · exact Or.inl rfl
    · refine Or.inr ⟨fun hk => hno ?_, hl⟩
      rw [← hk]
      exact List.mem_map_of_mem hl

theorem lastPut_append_self (h : List (K × V)) (e : K × V) : lastPut (h ++ [e]) e.1 = some e.2 := by
  unfold lastPut
  simp

theorem lastPut_append_of_ne (h : List (K × V)) {e : K × V} {k : K} (hk : k ≠ e.1) :
    lastPut (h ++ [e]) k = lastPut h k := by
  unfold lastPut
  rw [List.filter_append]
  simp [hk.symm]

/-- Every entry holds the value of the last put of its key. -/
theorem lastPut_of_mem_putAll {h : List (K × V)} {e : K × V} (he : e ∈ putAll h) :
    lastPut h e.1 = some e.2 := by
  induction h using List.reverseRecOn with
  | nil => cases he
  | append_singleton h e' ih =>
      rw [putAll_append_singleton] at he
      rcases mem_put he with rfl | ⟨hk, hl⟩
      · exact lastPut_append_self h e
      · rw [lastPut_append_of_ne h hk]
        exact ih hl

end Xv6.Lib.Assoc
