import Mathlib.Data.Finset.Lattice.Fold
import Mathlib.Data.List.FinRange
import Mathlib.Tactic.Ring
import Xv6.NotXv6.HashTable

set_option autoImplicit false

/-! # No put is lost under the locks of the buckets

Seen from outside its lock, a bucket is the association list that the puts in the order of
`locks[i]` build (`Assoc.putAll`). While a thread holds the lock, the bucket lags behind by the put
under way, and `Working` says how far that put has come. A step on one bucket writes only to nodes
with keys of that bucket, or to fresh memory, so the other buckets keep what they have. -/

namespace Xv6.HashTable

open Xv6.Lib

variable {Addr : Type} [DecidableEq Addr] {nthread nkeys : Nat}

/-! ## The steps by cases -/

/-- `keys[b * n + j]`, with `b` the number of keys of each thread. -/
def keyAt (keys : Fin nkeys → Nat) (nthread : Nat) (n j : Nat) : Option Nat :=
  if h : nkeys / nthread * n + j < nkeys then some (keys ⟨nkeys / nthread * n + j, h⟩) else none

inductive Step (keys : Fin nkeys → Nat) (s : State Addr nthread) (n : Fin nthread) :
    State Addr nthread → Prop where
  | loop (i key : Nat) : s.pc n = .loop i → i < nkeys / nthread →
      keyAt keys nthread n i = some key → Step keys s n (s.setPc n (.lock key i))
  | exit (i : Nat) : s.pc n = .loop i → ¬ i < nkeys / nthread → Step keys s n (s.setPc n .done)
  | lock (key i : Nat) : s.pc n = .lock key i → s.locks (bucket key) = none →
      Step keys s n ({ s with
        locks := Function.update s.locks (bucket key) (some n)
        order := Function.update s.order (bucket key)
          (s.order (bucket key) ++ [(key, n.val)]) }.setPc n (.search key i (s.table (bucket key))))
  | absent (key i : Nat) : s.pc n = .search key i none → Step keys s n (s.setPc n (.malloc key i))
  | found (key i : Nat) (e : Addr) : s.pc n = .search key i (some e) → (s.heap e).key = key →
      Step keys s n (s.setPc n (.update key i e))
  | next (key i : Nat) (e : Addr) : s.pc n = .search key i (some e) → (s.heap e).key ≠ key →
      Step keys s n (s.setPc n (.search key i (s.heap e).next))
  | update (key i : Nat) (e : Addr) : s.pc n = .update key i e →
      Step keys s n ({ s with
        heap := Function.update s.heap e { s.heap e with value := n.val } }.setPc n (.unlock key i))
  | malloc (key i : Nat) (e : Addr) : s.pc n = .malloc key i → s.allocated e = false →
      Step keys s n ({ s with
        heap := Function.update s.heap e ⟨key, n.val, s.table (bucket key)⟩
        allocated := Function.update s.allocated e true }.setPc n (.link key i e))
  | link (key i : Nat) (e : Addr) : s.pc n = .link key i e →
      Step keys s n ({ s with
        table := Function.update s.table (bucket key) (some e) }.setPc n (.unlock key i))
  | unlock (key i : Nat) : s.pc n = .unlock key i →
      Step keys s n ({ s with
        locks := Function.update s.locks (bucket key) none }.setPc n (.loop (i + 1)))

theorem step_cases {keys : Fin nkeys → Nat} {s t : State Addr nthread} {l : Label Addr nthread}
    (h : step keys s l = some t) : Step keys s l.thread t := by
  unfold step at h
  simp only at h
  split at h
  · next i hp =>
    split at h
    · next hi =>
      split at h
      · next hlt =>
        simp only [Option.some.injEq] at h
        subst h
        exact .loop i _ hp hi (by simp [keyAt, hlt])
      · simp at h
    · next hi =>
      simp only [Option.some.injEq] at h
      subst h
      exact .exit i hp hi
  · next key i hp =>
    split at h
    · next hfree =>
      simp only [Option.some.injEq] at h
      subst h
      exact .lock key i hp hfree
    · simp at h
  · next key i hp =>
    simp only [Option.some.injEq] at h
    subst h
    exact .absent key i hp
  · next key i e hp =>
    split at h
    · next hk =>
      simp only [Option.some.injEq] at h
      subst h
      exact .found key i e hp hk
    · next hk =>
      simp only [Option.some.injEq] at h
      subst h
      exact .next key i e hp hk
  · next key i e hp =>
    simp only [Option.some.injEq] at h
    subst h
    exact .update key i e hp
  · next key i hp =>
    split at h
    · next hfree =>
      simp only [Option.some.injEq] at h
      subst h
      exact .malloc key i l.fresh hp hfree
    · simp at h
  · next key i e hp =>
    simp only [Option.some.injEq] at h
    subst h
    exact .link key i e hp
  · next key i hp =>
    simp only [Option.some.injEq] at h
    subst h
    exact .unlock key i hp
  · simp at h

/-! ## Who holds which lock -/

/-- The key of the put whose critical section the thread is in. -/
def Pc.inSection : Pc Addr → Option Nat
  | .search key _ _ | .update key _ _ | .malloc key _ | .link key _ _ | .unlock key _ => some key
  | _ => none

def Locked (s : State Addr nthread) : Prop :=
  ∀ n i, s.locks i = some n ↔ ∃ key, (s.pc n).inSection = some key ∧ bucket key = i

omit [DecidableEq Addr] in
@[simp] theorem setPc_self (s : State Addr nthread) (n : Fin nthread) (c : Pc Addr) :
    (s.setPc n c).pc n = c := by
  simp [State.setPc]

omit [DecidableEq Addr] in
theorem setPc_of_ne (s : State Addr nthread) {n m : Fin nthread} (c : Pc Addr) (h : m ≠ n) :
    (s.setPc n c).pc m = s.pc m := by
  simp [State.setPc, h]

omit [DecidableEq Addr] in
/-- A thread moves on without taking or releasing a lock. -/
theorem Locked.move {s t : State Addr nthread} (h : Locked s) {n : Fin nthread} {c : Pc Addr}
    (hlocks : t.locks = s.locks) (hpc : t.pc = s.pc)
    (hc : c.inSection = (s.pc n).inSection) : Locked (t.setPc n c) := by
  intro m i
  show t.locks i = some m ↔ _
  rw [hlocks]
  by_cases hm : m = n
  · subst hm
    rw [setPc_self, hc]
    exact h m i
  · rw [setPc_of_ne _ _ hm, hpc]
    exact h m i

theorem Locked.step {keys : Fin nkeys → Nat} {s t : State Addr nthread} {n : Fin nthread}
    (h : Locked s) (hstep : Step keys s n t) : Locked t := by
  cases hstep with
  | loop i key hp => exact h.move rfl rfl (by simp [hp, Pc.inSection])
  | exit i hp => exact h.move rfl rfl (by simp [hp, Pc.inSection])
  | absent key i hp => exact h.move rfl rfl (by simp [hp, Pc.inSection])
  | found key i e hp => exact h.move rfl rfl (by simp [hp, Pc.inSection])
  | next key i e hp => exact h.move rfl rfl (by simp [hp, Pc.inSection])
  | update key i e hp => exact h.move rfl rfl (by simp [hp, Pc.inSection])
  | malloc key i e hp => exact h.move rfl rfl (by simp [hp, Pc.inSection])
  | link key i e hp => exact h.move rfl rfl (by simp [hp, Pc.inSection])
  | lock key i hp hfree =>
      intro m j
      show Function.update s.locks (bucket key) (some n) j = some m ↔ _
      by_cases hm : m = n
      · subst hm
        by_cases hj : j = bucket key
        · subst hj
          simp [Pc.inSection]
        · have hno : s.locks j ≠ some m := fun he => by
            obtain ⟨k, hk, -⟩ := (h m j).1 he
            simp [hp, Pc.inSection] at hk
          simp [hj, hno, Pc.inSection, Ne.symm hj]
      · rw [setPc_of_ne _ _ hm]
        by_cases hj : j = bucket key
        · subst hj
          have hno := h m (bucket key)
          rw [hfree] at hno
          simp only [Function.update_self, Option.some.injEq, ← hno]
          simp [Ne.symm hm]
        · rw [Function.update_of_ne hj]
          exact h m j
  | unlock key i hp =>
      have hmine : s.locks (bucket key) = some n := (h n _).2 ⟨key, by simp [hp, Pc.inSection], rfl⟩
      intro m j
      show Function.update s.locks (bucket key) none j = some m ↔ _
      by_cases hm : m = n
      · subst hm
        by_cases hj : j = bucket key
        · subst hj
          simp [Pc.inSection]
        · have hno : s.locks j ≠ some m := fun he => by
            obtain ⟨k, hk, hkj⟩ := (h m j).1 he
            simp only [hp, Pc.inSection, Option.some.injEq] at hk
            exact hj (by rw [← hkj, hk])
          simp [hj, hno, Pc.inSection]
      · rw [setPc_of_ne _ _ hm]
        by_cases hj : j = bucket key
        · subst hj
          have hno := h m (bucket key)
          rw [hmine] at hno
          simp only [Function.update_self, ← hno, Option.some.injEq]
          simp [Ne.symm hm]
        · rw [Function.update_of_ne hj]
          exact h m j

/-! ## One bucket -/

/-- The keys and values in a list of nodes. -/
def contents (heap : Addr → Entry Addr) (as : List Addr) : List (Nat × Nat) :=
  as.map fun a => ((heap a).key, (heap a).value)

/-- The list of bucket `i`, made of allocated nodes with keys of that bucket. -/
structure Chain (s : State Addr nthread) (i : Fin NBUCKET) (as : List Addr) : Prop where
  linked : Linked (fun a => (s.heap a).next) (s.table i) as
  own : ∀ a ∈ as, s.allocated a = true ∧ bucket (s.heap a).key = i

/-- The put of `key` by `n` is the last one in the order, and not yet in the list. -/
def Pending (s : State Addr nthread) (i : Fin NBUCKET) (as : List Addr) (n : Fin nthread)
    (key : Nat) : Prop :=
  ∃ before, s.order i = before ++ [(key, n.val)] ∧ contents s.heap as = Assoc.putAll before

/-- How far the put of the thread that holds the lock has come. -/
def Working (s : State Addr nthread) (i : Fin NBUCKET) (as : List Addr) (n : Fin nthread) :
    Pc Addr → Prop
  | .search key _ e => Pending s i as n key ∧ ∃ past rest, as = past ++ rest ∧
      Linked (fun a => (s.heap a).next) e rest ∧ ∀ a ∈ past, (s.heap a).key ≠ key
  | .update key _ e => Pending s i as n key ∧ e ∈ as ∧ (s.heap e).key = key
  | .malloc key _ => Pending s i as n key ∧ ∀ a ∈ as, (s.heap a).key ≠ key
  | .link key _ e => Pending s i as n key ∧ (∀ a ∈ as, (s.heap a).key ≠ key) ∧
      s.allocated e = true ∧ s.heap e = ⟨key, n.val, s.table i⟩
  | .unlock _ _ => contents s.heap as = Assoc.putAll (s.order i)
  | _ => False

structure BucketOk (s : State Addr nthread) (i : Fin NBUCKET) (as : List Addr) : Prop where
  chain : Chain s i as
  free : s.locks i = none → contents s.heap as = Assoc.putAll (s.order i)
  working : ∀ n, s.locks i = some n → Working s i as n (s.pc n)

omit [DecidableEq Addr] in
theorem contents_congr {heap heap' : Addr → Entry Addr} {as : List Addr}
    (h : ∀ a ∈ as, heap' a = heap a) : contents heap' as = contents heap as := by
  unfold contents
  apply List.map_congr_left
  intro a ha
  rw [h a ha]

omit [DecidableEq Addr] in
theorem keys_contents (heap : Addr → Entry Addr) (as : List Addr) :
    Assoc.keys (contents heap as) = as.map fun a => (heap a).key := by
  simp [Assoc.keys, contents, Function.comp_def]

omit [DecidableEq Addr] in
/-- A bucket is left alone when its fields and its allocated nodes are. -/
theorem BucketOk.frame {s t : State Addr nthread} {i : Fin NBUCKET} {as : List Addr}
    (h : BucketOk s i as) (htable : t.table i = s.table i) (hlocks : t.locks i = s.locks i)
    (horder : t.order i = s.order i) (hpc : ∀ n, s.locks i = some n → t.pc n = s.pc n)
    (hheap : ∀ a, s.allocated a = true → bucket (s.heap a).key = i → t.heap a = s.heap a)
    (hbucket : ∀ n key, s.locks i = some n → (s.pc n).inSection = some key → bucket key = i)
    (halloc : ∀ a, s.allocated a = true → t.allocated a = true) : BucketOk t i as := by
  have hown : ∀ a ∈ as, t.heap a = s.heap a := fun a ha =>
    hheap a (h.chain.own a ha).1 (h.chain.own a ha).2
  have hcont : contents t.heap as = contents s.heap as := contents_congr hown
  have hpend : ∀ n key, Pending s i as n key → Pending t i as n key := by
    rintro n key ⟨before, ho, hc⟩
    exact ⟨before, by rw [horder]; exact ho, by rw [hcont]; exact hc⟩
  refine ⟨⟨?_, fun a ha => ?_⟩, fun hfree => ?_, fun n hn => ?_⟩
  · rw [htable]
    exact h.chain.linked.congr fun a ha => by rw [hown a ha]
  · rw [hown a ha]
    exact ⟨halloc a (h.chain.own a ha).1, (h.chain.own a ha).2⟩
  · rw [hcont, horder]
    exact h.free (by rw [← hlocks]; exact hfree)
  · rw [hlocks] at hn
    have hw := h.working n hn
    rw [hpc n hn]
    have hb := hbucket n
    cases hc : s.pc n with
    | loop j => simp [hc, Working] at hw
    | lock key j => simp [hc, Working] at hw
    | done => simp [hc, Working] at hw
    | search key j e =>
        rw [hc] at hw
        obtain ⟨hp, past, rest, has, hl, hne⟩ := hw
        refine ⟨hpend _ _ hp, past, rest, has, hl.congr fun a ha => ?_, fun a ha => ?_⟩
        · rw [hown a (by simp [has, ha])]
        · rw [hown a (by simp [has, ha])]
          exact hne a ha
    | update key j e =>
        rw [hc] at hw
        exact ⟨hpend _ _ hw.1, hw.2.1, by rw [hown e hw.2.1]; exact hw.2.2⟩
    | malloc key j =>
        rw [hc] at hw
        exact ⟨hpend _ _ hw.1, fun a ha => by rw [hown a ha]; exact hw.2 a ha⟩
    | link key j e =>
        rw [hc] at hw
        obtain ⟨hp, hne, hall, he⟩ := hw
        have hbk : bucket key = i := hb key hn (by simp [hc, Pc.inSection])
        refine ⟨hpend _ _ hp, fun a ha => by rw [hown a ha]; exact hne a ha, halloc e hall, ?_⟩
        rw [hheap e hall (by rw [he]; exact hbk), he, htable]
    | unlock key j =>
        rw [hc] at hw
        show contents t.heap as = _
        rw [hcont, horder]
        exact hw

omit [DecidableEq Addr] in
theorem Locked.bucket_eq {s : State Addr nthread} (h : Locked s) {n : Fin nthread}
    {i : Fin NBUCKET} (hn : s.locks i = some n) {key : Nat}
    (hk : (s.pc n).inSection = some key) : bucket key = i := by
  obtain ⟨key', hk', hi⟩ := (h n i).1 hn
  rw [hk, Option.some.injEq] at hk'
  rw [hk']
  exact hi

omit [DecidableEq Addr] in
/-- A thread that does not hold `locks[i]` moves, and leaves the bucket alone. -/
theorem BucketOk.other {s u : State Addr nthread} {i : Fin NBUCKET} {as : List Addr}
    {n : Fin nthread} (c : Pc Addr) (h : BucketOk s i as) (hl : Locked s)
    (hn : s.locks i ≠ some n) (hpc : u.pc = s.pc) (htable : u.table i = s.table i)
    (hlocks : u.locks i = s.locks i) (horder : u.order i = s.order i)
    (hheap : ∀ a, s.allocated a = true → bucket (s.heap a).key = i → u.heap a = s.heap a)
    (halloc : ∀ a, s.allocated a = true → u.allocated a = true) : BucketOk (u.setPc n c) i as := by
  refine h.frame htable hlocks horder (fun m hm => ?_) hheap (fun m key hm hk => ?_) halloc
  · have hne : m ≠ n := fun he => hn (by rw [← he]; exact hm)
    rw [setPc_of_ne _ _ hne, hpc]
  · exact hl.bucket_eq hm hk

omit [DecidableEq Addr] in
/-- The thread that holds `locks[i]` moves. -/
theorem BucketOk.own {u : State Addr nthread} {i : Fin NBUCKET} {as : List Addr}
    {n : Fin nthread} {c : Pc Addr} (hchain : Chain u i as) (hlock : u.locks i = some n)
    (hw : Working u i as n c) : BucketOk (u.setPc n c) i as := by
  refine ⟨⟨hchain.linked, hchain.own⟩, fun hfree => ?_, fun m hm => ?_⟩
  · have : u.locks i = none := hfree
    simp [hlock] at this
  · have hmn : u.locks i = some m := hm
    rw [hlock, Option.some.injEq] at hmn
    subst hmn
    rw [setPc_self]
    cases c <;> exact hw

omit [DecidableEq Addr] in
/-- The put under way has reached the list. -/
theorem Pending.complete {s : State Addr nthread} {i : Fin NBUCKET} {as : List Addr}
    {n : Fin nthread} {key : Nat} (h : Pending s i as n key) {l : List (Nat × Nat)}
    (hl : l = Assoc.put (contents s.heap as) (key, n.val)) : l = Assoc.putAll (s.order i) := by
  obtain ⟨before, ho, hc⟩ := h
  rw [ho, Assoc.putAll_append_singleton, ← hc]
  exact hl

/-- Writing the value of the node with the key is `Assoc.put`. -/
theorem contents_update {heap : Addr → Entry Addr} {as : List Addr} {e : Addr} (he : e ∈ as)
    (hnodup : (as.map fun a => (heap a).key).Nodup) (v : Nat) :
    contents (Function.update heap e { heap e with value := v }) as
      = Assoc.put (contents heap as) ((heap e).key, v) := by
  have hmem : (heap e).key ∈ Assoc.keys (contents heap as) := by
    rw [keys_contents]
    exact List.mem_map_of_mem he
  unfold Assoc.put
  rw [if_pos hmem]
  unfold contents
  rw [List.map_map]
  apply List.map_congr_left
  intro a ha
  by_cases hae : a = e
  · simp [hae]
  · have hkey : (heap a).key ≠ (heap e).key := fun hk =>
      hae (List.inj_on_of_nodup_map hnodup ha he hk)
    simp [hae, hkey]

omit [DecidableEq Addr] in
/-- Linking a node with a new key in front is `Assoc.put`. -/
theorem contents_cons {heap : Addr → Entry Addr} {as : List Addr} {e : Addr} {key v : Nat}
    (hkey : (heap e).key = key) (hv : (heap e).value = v) (hne : ∀ a ∈ as, (heap a).key ≠ key) :
    contents heap (e :: as) = Assoc.put (contents heap as) (key, v) := by
  have hmem : key ∉ Assoc.keys (contents heap as) := by
    rw [keys_contents]
    intro hk
    obtain ⟨a, ha, hak⟩ := List.mem_map.1 hk
    exact hne a ha hak
  unfold Assoc.put
  rw [if_neg hmem]
  simp [contents, hkey, hv]

/-- Every bucket has its list. -/
def Buckets (s : State Addr nthread) : Prop := ∀ i, ∃ as, BucketOk s i as

omit [DecidableEq Addr] in
theorem Locked.mine {s : State Addr nthread} (hl : Locked s) {n : Fin nthread} {key : Nat}
    (hk : (s.pc n).inSection = some key) : s.locks (bucket key) = some n :=
  (hl n _).2 ⟨key, hk, rfl⟩

omit [DecidableEq Addr] in
theorem Locked.not_other {s : State Addr nthread} (hl : Locked s) {n : Fin nthread} {key : Nat}
    (hk : (s.pc n).inSection = some key) {i : Fin NBUCKET} (hi : i ≠ bucket key) :
    s.locks i ≠ some n :=
  fun he => hi (hl.bucket_eq he hk).symm

omit [DecidableEq Addr] in
theorem Locked.not_outside {s : State Addr nthread} (hl : Locked s) {n : Fin nthread}
    (hk : (s.pc n).inSection = none) (i : Fin NBUCKET) : s.locks i ≠ some n := fun he => by
  obtain ⟨key, hkey, -⟩ := (hl n i).1 he
  simp [hk] at hkey

omit [DecidableEq Addr] in
/-- A thread that holds no lock moves on without taking one. -/
theorem Buckets.outside {s : State Addr nthread} (h : Buckets s) (hl : Locked s) {n : Fin nthread}
    (hk : (s.pc n).inSection = none) (c : Pc Addr) : Buckets (s.setPc n c) := by
  intro i
  obtain ⟨as, hi⟩ := h i
  exact ⟨as, hi.other c hl (hl.not_outside hk i) rfl rfl rfl rfl (fun _ _ _ => rfl) fun _ ha => ha⟩

omit [DecidableEq Addr] in
/-- A step of the search, which reads memory and writes none. -/
theorem Buckets.search {s : State Addr nthread} (h : Buckets s) (hl : Locked s) {n : Fin nthread}
    (key : Nat) (hk : (s.pc n).inSection = some key) {c : Pc Addr}
    (hw : ∀ as, Working s (bucket key) as n (s.pc n) → Working s (bucket key) as n c) :
    Buckets (s.setPc n c) := by
  intro i
  obtain ⟨as, hi⟩ := h i
  by_cases hik : i = bucket key
  · subst hik
    exact ⟨as, BucketOk.own hi.chain (hl.mine hk) (hw as (hi.working n (hl.mine hk)))⟩
  · exact ⟨as, hi.other c hl (hl.not_other hk hik) rfl rfl rfl rfl (fun _ _ _ => rfl) fun _ ha => ha⟩

omit [DecidableEq Addr] in
theorem Buckets.lock {s : State Addr nthread} (h : Buckets s) (hl : Locked s) {n : Fin nthread}
    {key j : Nat} (hp : s.pc n = .lock key j) (hfree : s.locks (bucket key) = none) :
    Buckets ({ s with
      locks := Function.update s.locks (bucket key) (some n)
      order := Function.update s.order (bucket key)
        (s.order (bucket key) ++ [(key, n.val)]) }.setPc n (.search key j (s.table (bucket key)))) := by
  intro i
  obtain ⟨as, hi⟩ := h i
  by_cases hik : i = bucket key
  · subst hik
    refine ⟨as, BucketOk.own ⟨hi.chain.linked, hi.chain.own⟩ (by simp) ?_⟩
    refine ⟨⟨s.order (bucket key), by simp, hi.free hfree⟩, [], as, by simp, ?_, by simp⟩
    exact hi.chain.linked
  · exact ⟨as, hi.other _ hl (hl.not_outside (by simp [hp, Pc.inSection]) i) rfl rfl
      (by simp [hik]) (by simp [hik]) (fun _ _ _ => rfl) fun _ ha => ha⟩

theorem Buckets.update {s : State Addr nthread} (h : Buckets s) (hl : Locked s) {n : Fin nthread}
    {key j : Nat} {e : Addr} (hp : s.pc n = .update key j e) :
    Buckets ({ s with
      heap := Function.update s.heap e { s.heap e with value := n.val } }.setPc n
        (.unlock key j)) := by
  have hk : (s.pc n).inSection = some key := by simp [hp, Pc.inSection]
  intro i
  obtain ⟨as, hi⟩ := h i
  by_cases hik : i = bucket key
  · subst hik
    have hw := hi.working n (hl.mine hk)
    rw [hp] at hw
    obtain ⟨hpend, he, hkey⟩ := hw
    have hnodup : (as.map fun a => (s.heap a).key).Nodup := by
      obtain ⟨before, -, hc⟩ := hpend
      rw [← keys_contents, hc]
      exact Assoc.nodup_keys_putAll before
    have hsame : ∀ a, (Function.update s.heap e { s.heap e with value := n.val } a).key
        = (s.heap a).key ∧ (Function.update s.heap e { s.heap e with value := n.val } a).next
        = (s.heap a).next := by
      intro a
      by_cases hae : a = e
      · simp [hae]
      · simp [hae]
    refine ⟨as, BucketOk.own ⟨?_, fun a ha => ?_⟩ (hl.mine hk) ?_⟩
    · exact hi.chain.linked.congr fun a _ => (hsame a).2
    · rw [(hsame a).1]
      exact hi.chain.own a ha
    · refine hpend.complete ?_
      rw [← hkey]
      exact contents_update he hnodup n.val
  · refine ⟨as, hi.other _ hl (hl.not_other hk hik) rfl rfl rfl rfl (fun a _ hb => ?_) fun _ ha => ha⟩
    -- the node written belongs to the bucket whose lock is held
    have hae : a ≠ e := fun hae => by
      obtain ⟨as', hok⟩ := h (bucket key)
      have hw := hok.working n (hl.mine hk)
      rw [hp] at hw
      rw [hae, hw.2.2] at hb
      exact hik hb.symm
    simp [hae]

theorem Buckets.malloc {s : State Addr nthread} (h : Buckets s) (hl : Locked s) {n : Fin nthread}
    {key j : Nat} {e : Addr} (hp : s.pc n = .malloc key j) (hfresh : s.allocated e = false) :
    Buckets ({ s with
      heap := Function.update s.heap e ⟨key, n.val, s.table (bucket key)⟩
      allocated := Function.update s.allocated e true }.setPc n (.link key j e)) := by
  have hk : (s.pc n).inSection = some key := by simp [hp, Pc.inSection]
  have hother : ∀ a, s.allocated a = true →
      Function.update s.heap e ⟨key, n.val, s.table (bucket key)⟩ a = s.heap a := by
    intro a ha
    have hae : a ≠ e := fun hae => by simp [hae, hfresh] at ha
    simp [hae]
  have halloc : ∀ a, s.allocated a = true → Function.update s.allocated e true a = true := by
    intro a ha
    by_cases hae : a = e
    · simp [hae]
    · simp [hae, ha]
  intro i
  obtain ⟨as, hi⟩ := h i
  by_cases hik : i = bucket key
  · subst hik
    have hw := hi.working n (hl.mine hk)
    rw [hp] at hw
    obtain ⟨⟨before, ho, hc⟩, hne⟩ := hw
    have hown : ∀ a ∈ as, Function.update s.heap e ⟨key, n.val, s.table (bucket key)⟩ a = s.heap a :=
      fun a ha => hother a (hi.chain.own a ha).1
    refine ⟨as, BucketOk.own ⟨?_, fun a ha => ?_⟩ (hl.mine hk) ⟨⟨before, ho, ?_⟩, fun a ha => ?_, ?_, ?_⟩⟩
    · exact hi.chain.linked.congr fun a ha => congrArg Entry.next (hown a ha)
    · simp only
      rw [hown a ha]
      exact ⟨halloc a (hi.chain.own a ha).1, (hi.chain.own a ha).2⟩
    · rw [← hc]
      exact contents_congr hown
    · simp only
      rw [hown a ha]
      exact hne a ha
    · simp
    · simp
  · exact ⟨as, hi.other _ hl (hl.not_other hk hik) rfl rfl rfl rfl (fun a ha _ => hother a ha) halloc⟩

omit [DecidableEq Addr] in
theorem Buckets.link {s : State Addr nthread} (h : Buckets s) (hl : Locked s) {n : Fin nthread}
    {key j : Nat} {e : Addr} (hp : s.pc n = .link key j e) :
    Buckets ({ s with table := Function.update s.table (bucket key) (some e) }.setPc n
      (.unlock key j)) := by
  have hk : (s.pc n).inSection = some key := by simp [hp, Pc.inSection]
  intro i
  obtain ⟨as, hi⟩ := h i
  by_cases hik : i = bucket key
  · subst hik
    have hw := hi.working n (hl.mine hk)
    rw [hp] at hw
    obtain ⟨hpend, hne, halloc, he⟩ := hw
    refine ⟨e :: as, BucketOk.own ⟨⟨by simp, ?_⟩, fun a ha => ?_⟩ (hl.mine hk) ?_⟩
    · simp only [he]
      exact hi.chain.linked
    · rcases List.mem_cons.1 ha with rfl | ha
      · exact ⟨halloc, by simp [he]⟩
      · exact hi.chain.own a ha
    · exact hpend.complete (contents_cons (by simp [he]) (by simp [he]) hne)
  · exact ⟨as, hi.other _ hl (hl.not_other hk hik) rfl (by simp [hik]) rfl rfl (fun _ _ _ => rfl)
      fun _ ha => ha⟩

omit [DecidableEq Addr] in
theorem Buckets.unlock {s : State Addr nthread} (h : Buckets s) (hl : Locked s) {n : Fin nthread}
    {key j : Nat} (hp : s.pc n = .unlock key j) :
    Buckets ({ s with locks := Function.update s.locks (bucket key) none }.setPc n
      (.loop (j + 1))) := by
  have hk : (s.pc n).inSection = some key := by simp [hp, Pc.inSection]
  intro i
  obtain ⟨as, hi⟩ := h i
  by_cases hik : i = bucket key
  · subst hik
    have hw := hi.working n (hl.mine hk)
    rw [hp] at hw
    refine ⟨as, ⟨hi.chain.linked, hi.chain.own⟩, fun _ => hw, fun m hm => ?_⟩
    have hnone : Function.update s.locks (bucket key) none (bucket key) = some m := hm
    simp at hnone
  · exact ⟨as, hi.other _ hl (hl.not_other hk hik) rfl rfl (by simp [hik]) rfl (fun _ _ _ => rfl)
      fun _ ha => ha⟩

theorem Buckets.step {keys : Fin nkeys → Nat} {s t : State Addr nthread} {n : Fin nthread}
    (h : Buckets s) (hl : Locked s) (hstep : Step keys s n t) : Buckets t := by
  cases hstep with
  | loop j key hp => exact h.outside hl (by simp [hp, Pc.inSection]) _
  | exit j hp => exact h.outside hl (by simp [hp, Pc.inSection]) _
  | lock key j hp hfree => exact h.lock hl hp hfree
  | absent key j hp =>
      refine h.search hl key (by simp [hp, Pc.inSection]) fun as hw => ?_
      rw [hp] at hw
      obtain ⟨hpend, past, rest, has, hlink, hne⟩ := hw
      have hrest : rest = [] := hlink.unique (show Linked _ none [] from rfl)
      refine ⟨hpend, ?_⟩
      rw [has, hrest, List.append_nil]
      exact hne
  | found key j e hp hk =>
      refine h.search hl key (by simp [hp, Pc.inSection]) fun as hw => ?_
      rw [hp] at hw
      obtain ⟨hpend, past, rest, has, hlink, -⟩ := hw
      cases rest with
      | nil => simp [Linked] at hlink
      | cons a rest =>
          obtain ⟨hea, -⟩ := hlink
          rw [Option.some.injEq] at hea
          exact ⟨hpend, by simp [has, hea], hk⟩
  | next key j e hp hk =>
      refine h.search hl key (by simp [hp, Pc.inSection]) fun as hw => ?_
      rw [hp] at hw
      obtain ⟨hpend, past, rest, has, hlink, hne⟩ := hw
      cases rest with
      | nil => simp [Linked] at hlink
      | cons a rest =>
          obtain ⟨hea, hrest⟩ := hlink
          rw [Option.some.injEq] at hea
          subst hea
          refine ⟨hpend, past ++ [e], rest, by simp [has], hrest, fun a ha => ?_⟩
          rcases List.mem_append.1 ha with ha | ha
          · exact hne a ha
          · rw [List.mem_singleton.1 ha]
            exact hk
  | update key j e hp => exact h.update hl hp
  | malloc key j e hp hfresh => exact h.malloc hl hp hfresh
  | link key j e hp => exact h.link hl hp
  | unlock key j hp => exact h.unlock hl hp

/-! ## Which puts are in the order -/

/-- The number of puts with which the thread has taken a lock. -/
def Pc.begun (b : Nat) : Pc Addr → Nat
  | .loop i | .lock _ i => i
  | .search _ i _ | .update _ i _ | .malloc _ i | .link _ i _ | .unlock _ i => i + 1
  | .done => b

/-- The key and the index of the put that has not yet taken its lock. -/
def Pc.waiting : Pc Addr → Option (Nat × Nat)
  | .lock key i => some (key, i)
  | _ => none

/-- The order of each bucket holds exactly the puts begun so far whose keys belong to it. -/
structure Ordered (keys : Fin nkeys → Nat) (s : State Addr nthread) : Prop where
  bound : ∀ n, (s.pc n).begun (nkeys / nthread) ≤ nkeys / nthread
  waiting : ∀ n key i, (s.pc n).waiting = some (key, i) →
    i < nkeys / nthread ∧ keyAt keys nthread n i = some key
  order : ∀ i e, e ∈ s.order i ↔ bucket e.1 = i ∧ ∃ n : Fin nthread, e.2 = n.val ∧
    ∃ j, j < (s.pc n).begun (nkeys / nthread) ∧ keyAt keys nthread n j = some e.1

omit [DecidableEq Addr] in
/-- A thread moves on without taking a lock. -/
theorem Ordered.move {keys : Fin nkeys → Nat} {s u : State Addr nthread} (h : Ordered keys s)
    {n : Fin nthread} {c : Pc Addr} (hpc : u.pc = s.pc) (horder : u.order = s.order)
    (hc : c.begun (nkeys / nthread) = (s.pc n).begun (nkeys / nthread))
    (hw : ∀ key i, c.waiting = some (key, i) →
      i < nkeys / nthread ∧ keyAt keys nthread n i = some key) : Ordered keys (u.setPc n c) := by
  have hbegun : ∀ m, ((u.setPc n c).pc m).begun (nkeys / nthread)
      = (s.pc m).begun (nkeys / nthread) := by
    intro m
    by_cases hm : m = n
    · subst hm
      rw [setPc_self, hc]
    · rw [setPc_of_ne _ _ hm, hpc]
  refine ⟨fun m => ?_, fun m key i hmw => ?_, fun i e => ?_⟩
  · rw [hbegun]
    exact h.bound m
  · by_cases hm : m = n
    · subst hm
      rw [setPc_self] at hmw
      exact hw key i hmw
    · rw [setPc_of_ne _ _ hm, hpc] at hmw
      exact h.waiting m key i hmw
  · show e ∈ u.order i ↔ _
    rw [horder, h.order i e]
    simp only [hbegun]

omit [DecidableEq Addr] in
/-- A thread takes the lock of its bucket, and its put enters the order. -/
theorem Ordered.lock {keys : Fin nkeys → Nat} {s : State Addr nthread} (h : Ordered keys s)
    {n : Fin nthread} {key j : Nat} (hp : s.pc n = .lock key j) (e : Option Addr) :
    Ordered keys ({ s with
      locks := Function.update s.locks (bucket key) (some n)
      order := Function.update s.order (bucket key)
        (s.order (bucket key) ++ [(key, n.val)]) }.setPc n (.search key j e)) := by
  obtain ⟨hj, hkey⟩ := h.waiting n key j (by simp [hp, Pc.waiting])
  refine ⟨fun m => ?_, fun m k i hmw => ?_, fun i f => ?_⟩
  · by_cases hm : m = n
    · subst hm
      rw [setPc_self]
      exact hj
    · rw [setPc_of_ne _ _ hm]
      exact h.bound m
  · by_cases hm : m = n
    · subst hm
      simp [Pc.waiting] at hmw
    · rw [setPc_of_ne _ _ hm] at hmw
      exact h.waiting m k i hmw
  · have horder : f ∈ Function.update s.order (bucket key) (s.order (bucket key) ++ [(key, n.val)]) i ↔
        f ∈ s.order i ∨ (f = (key, n.val) ∧ bucket key = i) := by
      by_cases hi : i = bucket key
      · subst hi
        simp
      · simp [hi, Ne.symm hi]
    show f ∈ Function.update s.order (bucket key) (s.order (bucket key) ++ [(key, n.val)]) i ↔ _
    rw [horder, h.order i f]
    constructor
    · rintro (⟨hb, m, hm, k, hk, hke⟩ | ⟨rfl, hb⟩)
      · refine ⟨hb, m, hm, k, ?_, hke⟩
        by_cases hmn : m = n
        · subst hmn
          simp only [hp, Pc.begun] at hk
          simp only [setPc_self, Pc.begun]
          omega
        · rw [setPc_of_ne _ _ hmn]
          exact hk
      · exact ⟨hb, n, rfl, j, by simp [Pc.begun], hkey⟩
    · rintro ⟨hb, m, hm, k, hk, hke⟩
      by_cases hmn : m = n
      · subst hmn
        simp only [setPc_self, Pc.begun] at hk
        by_cases hkj : k = j
        · subst hkj
          rw [hkey, Option.some.injEq] at hke
          right
          exact ⟨Prod.ext hke.symm hm, by rw [hke]; exact hb⟩
        · left
          refine ⟨hb, m, hm, k, ?_, hke⟩
          simp only [hp, Pc.begun]
          omega
      · rw [setPc_of_ne _ _ hmn] at hk
        exact Or.inl ⟨hb, m, hm, k, hk, hke⟩

theorem Ordered.step {keys : Fin nkeys → Nat} {s t : State Addr nthread} {n : Fin nthread}
    (h : Ordered keys s) (hstep : Step keys s n t) : Ordered keys t := by
  cases hstep with
  | loop j key hp hj hkey =>
      refine h.move rfl rfl (by simp [hp, Pc.begun]) fun k i hw => ?_
      simp only [Pc.waiting, Option.some.injEq, Prod.mk.injEq] at hw
      obtain ⟨rfl, rfl⟩ := hw
      exact ⟨hj, hkey⟩
  | exit j hp hj =>
      have hb := h.bound n
      simp only [hp, Pc.begun] at hb
      refine h.move rfl rfl ?_ (by simp [Pc.waiting])
      simp only [hp, Pc.begun]
      omega
  | lock key j hp => exact h.lock hp _
  | absent key j hp => exact h.move rfl rfl (by simp [hp, Pc.begun]) (by simp [Pc.waiting])
  | found key j e hp => exact h.move rfl rfl (by simp [hp, Pc.begun]) (by simp [Pc.waiting])
  | next key j e hp => exact h.move rfl rfl (by simp [hp, Pc.begun]) (by simp [Pc.waiting])
  | update key j e hp => exact h.move rfl rfl (by simp [hp, Pc.begun]) (by simp [Pc.waiting])
  | malloc key j e hp => exact h.move rfl rfl (by simp [hp, Pc.begun]) (by simp [Pc.waiting])
  | link key j e hp => exact h.move rfl rfl (by simp [hp, Pc.begun]) (by simp [Pc.waiting])
  | unlock key j hp => exact h.move rfl rfl (by simp [hp, Pc.begun]) (by simp [Pc.waiting])

/-! ## After the threads have been joined -/

structure Inv (keys : Fin nkeys → Nat) (s : State Addr nthread) : Prop where
  locked : Locked s
  buckets : Buckets s
  ordered : Ordered keys s

omit [DecidableEq Addr] in
theorem inv_init {keys : Fin nkeys → Nat} {s : State Addr nthread} (h : Init s) : Inv keys s := by
  obtain ⟨htable, hlocks, hpc, horder⟩ := h
  refine ⟨fun n i => ?_, fun i => ⟨[], ⟨htable i, by simp⟩, fun _ => ?_, fun n hn => ?_⟩,
    fun n => ?_, fun n key i hw => ?_, fun i e => ?_⟩
  · simp [hlocks, hpc, Pc.inSection]
  · simp [contents, horder, Assoc.putAll]
  · simp [hlocks] at hn
  · simp [hpc, Pc.begun]
  · simp [hpc, Pc.waiting] at hw
  · simp [hpc, horder, Pc.begun]

theorem Inv.step {keys : Fin nkeys → Nat} {s t : State Addr nthread} {l : Label Addr nthread}
    (h : Inv keys s) (hstep : step keys s l = some t) : Inv keys t :=
  have hs := step_cases hstep
  ⟨h.locked.step hs, h.buckets.step h.locked hs, h.ordered.step hs⟩

/-- The threads share all of `keys` out among them. -/
theorem exists_keyAt (keys : Fin nkeys → Nat) (hdvd : nthread ∣ nkeys) (m : Fin nkeys) :
    ∃ n : Fin nthread, ∃ j, j < nkeys / nthread ∧ keyAt keys nthread n j = some (keys m) := by
  have hm : m.val < nkeys / nthread * nthread := by
    rw [Nat.div_mul_cancel hdvd]
    exact m.isLt
  have hb : 0 < nkeys / nthread := by
    rcases Nat.eq_zero_or_pos (nkeys / nthread) with h0 | h0
    · simp [h0] at hm
    · exact h0
  refine ⟨⟨m.val / (nkeys / nthread), Nat.div_lt_of_lt_mul hm⟩, m.val % (nkeys / nthread),
    Nat.mod_lt _ hb, ?_⟩
  have heq : nkeys / nthread * (m.val / (nkeys / nthread)) + m.val % (nkeys / nthread) = m.val :=
    Nat.div_add_mod ..
  simp [keyAt, heq]

theorem keyAt_mem {keys : Fin nkeys → Nat} {n j k : Nat} (h : keyAt keys nthread n j = some k) :
    ∃ m, keys m = k := by
  unfold keyAt at h
  split at h
  · rw [Option.some.injEq] at h
    exact ⟨_, h⟩
  · simp at h

omit [DecidableEq Addr] in
/-- With more fuel than nodes, `find` tells whether the list holds the key. -/
theorem find_linked {heap : Addr → Entry Addr} {key fuel : Nat} {p : Option Addr} {as : List Addr}
    (h : Linked (fun a => (heap a).next) p as) (hfuel : as.length < fuel) :
    ∃ e, find heap key fuel p = some e ∧ (∀ a, e = some a → a ∈ as ∧ (heap a).key = key) ∧
      (e = none → ∀ a ∈ as, (heap a).key ≠ key) := by
  induction as generalizing p fuel with
  | nil =>
      cases fuel with
      | zero => simp at hfuel
      | succ fuel =>
          have hp : p = none := h
          exact ⟨none, by simp [hp, find], by simp, by simp⟩
  | cons a as ih =>
      cases fuel with
      | zero => simp at hfuel
      | succ fuel =>
          obtain ⟨hp, hlink⟩ := h
          subst hp
          by_cases hk : (heap a).key = key
          · exact ⟨some a, by simp [find, hk], by simp [hk], by simp⟩
          · obtain ⟨e, he, hsome, hnone⟩ := ih hlink (by simpa using hfuel)
            refine ⟨e, by simp [find, hk, he], fun b hb => ?_, fun hno b hb => ?_⟩
            · exact ⟨List.mem_cons_of_mem _ (hsome b hb).1, (hsome b hb).2⟩
            · rcases List.mem_cons.1 hb with rfl | hb
              · exact hk
              · exact hnone hno b hb

omit [DecidableEq Addr] in
theorem getThread_eq_zero {keys : Fin nkeys → Nat} {fuel : Nat} {s : State Addr nthread}
    (h : ∀ j, ∃ e, get fuel s (keys j) = some (some e)) : getThread keys fuel s = some 0 := by
  unfold getThread
  generalize List.finRange nkeys = l
  induction l with
  | nil => rfl
  | cons j l ih =>
      obtain ⟨e, he⟩ := h j
      simp only [List.foldlM_cons, he, Option.map_some]
      exact ih

omit [DecidableEq Addr] in
/-- When all threads are done, the keys in the order of a bucket are those of `keys`. -/
theorem Ordered.mem_keys_iff {keys : Fin nkeys → Nat} {s : State Addr nthread} (h : Ordered keys s)
    (hdvd : nthread ∣ nkeys) (hdone : ∀ n, s.pc n = .done) (i : Fin NBUCKET) (k : Nat) :
    k ∈ Assoc.keys (s.order i) ↔ bucket k = i ∧ ∃ m, keys m = k := by
  unfold Assoc.keys
  constructor
  · intro hk
    obtain ⟨e, he, rfl⟩ := List.mem_map.1 hk
    obtain ⟨hb, n, -, j, -, hkey⟩ := (h.order i e).1 he
    exact ⟨hb, keyAt_mem hkey⟩
  · rintro ⟨hb, m, rfl⟩
    obtain ⟨n, j, hj, hkey⟩ := exists_keyAt keys hdvd m
    have he : (keys m, n.val) ∈ s.order i :=
      (h.order i _).2 ⟨hb, n, rfl, j, by rw [hdone]; exact hj, hkey⟩
    exact List.mem_map.2 ⟨_, he, rfl⟩

/-- **No put is lost.** Once all put threads are done, in whatever order they ran: the list of each
    bucket is finite, has no key twice and only keys of its bucket; the keys in the table are those
    of `keys`; every key has the value of the thread whose put of it came last in the order of the
    lock; and `get` finds every key, so that every `get_thread` reports 0 missing. -/
theorem no_put_lost (keys : Fin nkeys → Nat) (hdvd : nthread ∣ nkeys)
    (s₀ s : State Addr nthread) (ls : List (Label Addr nthread)) (h₀ : Init s₀)
    (hrun : runSteps (step keys) s₀ ls = some s) (hdone : ∀ n, s.pc n = .done) :
    (∃ nodes : Fin NBUCKET → List Addr,
      (∀ i, Linked (fun a => (s.heap a).next) (s.table i) (nodes i) ∧
        ((nodes i).map fun a => (s.heap a).key).Nodup ∧
        ∀ a ∈ nodes i, (s.heap a).key % NBUCKET = i.val ∧
          Assoc.lastPut (s.order i) (s.heap a).key = some (s.heap a).value) ∧
      ∀ k, (∃ i, ∃ a ∈ nodes i, (s.heap a).key = k) ↔ ∃ j, keys j = k) ∧
    ∃ enough, ∀ fuel, enough ≤ fuel →
      (∀ j, ∃ e, get fuel s (keys j) = some (some e) ∧ (s.heap e).key = keys j) ∧
      getThread keys fuel s = some 0 := by
  have hinv : Inv keys s := runSteps_invariant (fun _ _ _ h => h.step) (inv_init h₀) hrun
  choose nodes hnodes using hinv.buckets
  have hfree : ∀ i, s.locks i = none := by
    intro i
    cases hl : s.locks i with
    | none => rfl
    | some n =>
        obtain ⟨key, hk, -⟩ := (hinv.locked n i).1 hl
        simp [hdone, Pc.inSection] at hk
  have hcont : ∀ i, contents s.heap (nodes i) = Assoc.putAll (s.order i) :=
    fun i => (hnodes i).free (hfree i)
  have hmem : ∀ i k, (∃ a ∈ nodes i, (s.heap a).key = k) ↔ bucket k = i ∧ ∃ j, keys j = k := by
    intro i k
    rw [← hinv.ordered.mem_keys_iff hdvd hdone i k, ← Assoc.mem_keys_putAll, ← hcont,
      keys_contents, List.mem_map]
  refine ⟨⟨nodes, fun i => ⟨(hnodes i).chain.linked, ?_, fun a ha => ⟨?_, ?_⟩⟩, fun k => ?_⟩, ?_⟩
  · rw [← keys_contents, hcont]
    exact Assoc.nodup_keys_putAll _
  · have hb := ((hnodes i).chain.own a ha).2
    rw [← hb]
    rfl
  · refine Assoc.lastPut_of_mem_putAll (e := ((s.heap a).key, (s.heap a).value)) ?_
    rw [← hcont]
    exact List.mem_map_of_mem ha
  · constructor
    · rintro ⟨i, ha⟩
      exact ((hmem i k).1 ha).2
    · intro hk
      exact ⟨bucket k, (hmem _ k).2 ⟨rfl, hk⟩⟩
  · refine ⟨(Finset.univ.sup fun i => (nodes i).length) + 1, fun fuel hfuel => ?_⟩
    have hget : ∀ j, ∃ e, get fuel s (keys j) = some (some e) ∧ (s.heap e).key = keys j := by
      intro j
      have hlen : (nodes (bucket (keys j))).length < fuel := by
        have hle : (nodes (bucket (keys j))).length ≤ Finset.univ.sup fun i => (nodes i).length :=
          Finset.le_sup (f := fun i => (nodes i).length) (Finset.mem_univ _)
        omega
      obtain ⟨e, he, hsome, hnone⟩ : ∃ e, get fuel s (keys j) = some e ∧ _ ∧ _ :=
        find_linked (hnodes (bucket (keys j))).chain.linked hlen
      cases e with
      | none =>
          obtain ⟨a, ha, hk⟩ := (hmem (bucket (keys j)) (keys j)).2 ⟨rfl, j, rfl⟩
          exact absurd hk (hnone rfl a ha)
      | some a => exact ⟨a, he, (hsome a rfl).2⟩
    exact ⟨hget, getThread_eq_zero fun j => ⟨_, (hget j).choose_spec.1⟩⟩

theorem index_lt (hdvd : nthread ∣ nkeys) (n : Fin nthread) {i : Nat} (hi : i < nkeys / nthread) :
    nkeys / nthread * n.val + i < nkeys := by
  calc nkeys / nthread * n.val + i
      < nkeys / nthread * n.val + nkeys / nthread := by omega
    _ = nkeys / nthread * (n.val + 1) := by ring
    _ ≤ nkeys / nthread * nthread := Nat.mul_le_mul_left _ n.isLt
    _ = nkeys := Nat.div_mul_cancel hdvd

/-- A thread in its critical section can move. -/
theorem exists_step_of_inSection (keys : Fin nkeys → Nat) {s : State Addr nthread} {n : Fin nthread}
    {key : Nat} (hk : (s.pc n).inSection = some key) {e : Addr} (he : s.allocated e = false) :
    ∃ t, step keys s ⟨n, e⟩ = some t := by
  cases hp : s.pc n with
  | loop i => simp [hp, Pc.inSection] at hk
  | lock k i => simp [hp, Pc.inSection] at hk
  | done => simp [hp, Pc.inSection] at hk
  | update k i a => simp [step, hp]
  | malloc k i => simp [step, hp, he]
  | link k i a => simp [step, hp]
  | unlock k i => simp [step, hp]
  | search k i p =>
      cases p with
      | none => simp [step, hp]
      | some a =>
          by_cases hka : (s.heap a).key = k
          · simp [step, hp, hka]
          · simp [step, hp, hka]

/-- There is no deadlock: while a thread is not done and memory is left, some thread can move. -/
theorem Inv.not_stuck {keys : Fin nkeys → Nat} {s : State Addr nthread} (h : Inv keys s)
    (hdvd : nthread ∣ nkeys) {e : Addr} (he : s.allocated e = false) {n : Fin nthread}
    (hn : s.pc n ≠ .done) : ∃ l t, HashTable.step keys s l = some t := by
  cases hk : (s.pc n).inSection with
  | some key => exact ⟨⟨n, e⟩, exists_step_of_inSection keys hk he⟩
  | none =>
      cases hp : s.pc n with
      | done => exact absurd hp hn
      | loop i =>
          refine ⟨⟨n, e⟩, ?_⟩
          by_cases hi : i < nkeys / nthread
          · simp [HashTable.step, hp, hi, index_lt hdvd n hi]
          · simp [HashTable.step, hp, hi]
      | lock key i =>
          cases hl : s.locks (bucket key) with
          | none => exact ⟨⟨n, e⟩, by simp [HashTable.step, hp, hl]⟩
          | some m =>
              obtain ⟨key', hk', -⟩ := (h.locked m _).1 hl
              exact ⟨⟨m, e⟩, exists_step_of_inSection keys hk' he⟩
      | search k i a => simp [hp, Pc.inSection] at hk
      | update k i a => simp [hp, Pc.inSection] at hk
      | malloc k i => simp [hp, Pc.inSection] at hk
      | link k i a => simp [hp, Pc.inSection] at hk
      | unlock k i => simp [hp, Pc.inSection] at hk

/-! ## A run of two threads that put the same key -/

def emptyTable : State Nat 2 :=
  { heap := fun _ => ⟨0, 0, none⟩, allocated := fun _ => false, table := fun _ => none,
    locks := fun _ => none, pc := fun _ => .loop 0, order := fun _ => [] }

/-- Thread 0 inserts key 7, then thread 1 finds it and overwrites its value. -/
def sameKey : List (Label Nat 2) :=
  [⟨0, 0⟩, ⟨1, 0⟩, ⟨0, 0⟩, ⟨0, 0⟩, ⟨0, 0⟩, ⟨0, 0⟩, ⟨0, 0⟩, ⟨1, 0⟩, ⟨1, 0⟩, ⟨1, 0⟩, ⟨1, 0⟩, ⟨0, 0⟩, ⟨1, 0⟩]

theorem no_put_lost_same_key :
    ∃ s, runSteps (step fun _ : Fin 2 => 7) emptyTable sameKey = some s ∧
      (∀ n, s.pc n = .done) ∧ ∃ enough, ∀ fuel, enough ≤ fuel →
        getThread (fun _ : Fin 2 => 7) fuel s = some 0 := by
  let s := (runSteps (step fun _ : Fin 2 => 7) emptyTable sameKey).get (by decide)
  have hrun : runSteps (step fun _ : Fin 2 => 7) emptyTable sameKey = some s :=
    (Option.some_get _).symm
  have hdone : ∀ n, s.pc n = .done := by decide
  obtain ⟨-, enough, hfuel⟩ := no_put_lost (fun _ : Fin 2 => 7) (by decide) emptyTable s sameKey
    ⟨fun _ => rfl, fun _ => rfl, fun _ => rfl, fun _ => rfl⟩ hrun hdone
  exact ⟨s, hrun, hdone, enough, fun fuel h => (hfuel fuel h).2⟩

end Xv6.HashTable
