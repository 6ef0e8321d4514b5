import Mathlib.Data.List.AList
import Mathlib.Logic.Relation
import Sonatina.Ir.Function

/-!
# The Function Store

`FuncStore` (`module.rs`) is a concurrent map from `FuncRef` to `Function` with a mutex `_guard`.
`insert` takes the guard, reads the number of stored functions and inserts under that number
(`len() as u32`); `funcs` takes the guard and lists the references `0 .. len`. `update`, `modify`
and `view` do not take the guard. Every map operation is atomic.

References are dense only while every key is below the number of keys (`KeysDense`): then
`insert` computes a fresh reference. `update` inserts first and unwraps the previous entry after,
so an update of a reference that is not stored fails only after storing it, and the next inserts
can land on it (`update_absent_then_insert_replaces`). When updates go to stored references only,
the store stays dense under every interleaving of the threads' atomic steps
(`storeSystem_keysDense`).

## Main results

* `keysDense_insert`, `keysDense_update`, `keysDense_modify`: the sequential steps.
* `StoreSystem.step`: one atomic step of one thread; `insert` is two steps around the guard.
* `storeSystem_keysDense`: density, fresh inserts, `funcs` and `view` along every interleaving.
* `update_absent_then_insert_replaces`: a failed update breaks density.
* `insertPut_linearizes`: the two steps of `insert` are one atomic insert at the second.
-/

namespace Sonatina

/-- A reference to a function of a module (`FuncRef(u32)`). -/
structure FuncRef where
  index : UInt32
  deriving DecidableEq, Repr

/-- `FuncRef::from_u32`. -/
def FuncRef.fromU32 (n : UInt32) : FuncRef :=
  ⟨n⟩

/-- The function store (`FuncStore`). The map field, `funcs` in the source, is `table` here, as
`funcs` names the method; the guard is modelled by `StoreSystem`. -/
structure FuncStore where
  table : AList fun _ : FuncRef => Function

namespace FuncStore

/-- The empty store (`FuncStore::new`). -/
def new : FuncStore :=
  ⟨∅⟩

/-- The number of stored functions (`DashMap::len`). -/
def len (store : FuncStore) : Nat :=
  store.table.entries.length

/-- Store `func` under `funcRef`, then unwrap the previous entry (`update`): the store after the
insert, and whether the unwrap succeeded. -/
def update (store : FuncStore) (funcRef : FuncRef) (func : Function) : FuncStore × Bool :=
  (⟨store.table.insert funcRef func⟩, decide (funcRef ∈ store.table))

/-- Store a function under the number of stored functions, truncated to `u32` (`insert`). -/
def insert (store : FuncStore) (func : Function) : FuncStore × FuncRef :=
  let funcRef := FuncRef.fromU32 (UInt32.ofNat store.len)
  (⟨store.table.insert funcRef func⟩, funcRef)

/-- The stored function (`view`); an absent reference panics. -/
def view (store : FuncStore) (funcRef : FuncRef) : Option Function :=
  store.table.lookup funcRef

/-- Apply `f` to the stored function (`modify`); an absent reference panics. -/
def modify (store : FuncStore) (funcRef : FuncRef) (f : Function → Function) : Option FuncStore :=
  (store.table.lookup funcRef).map fun func => ⟨store.table.replace funcRef (f func)⟩

/-- The references `0 .. len` (`funcs`). -/
def funcs (store : FuncStore) : List FuncRef :=
  (List.range store.len).map fun n => FuncRef.fromU32 (UInt32.ofNat n)

/-! ### Density -/

/-- **Dense keys.** The stored references are exactly those below the number of stored
functions. -/
def KeysDense (store : FuncStore) : Prop :=
  ∀ funcRef : FuncRef, funcRef ∈ store.table ↔ funcRef.index.toNat < store.len

/-- The number of stored functions is the number of keys. -/
theorem len_eq_keys (store : FuncStore) : store.len = store.table.keys.length := by
  simp [len, AList.keys, List.keys]

/-- The empty store is dense. -/
theorem keysDense_new : new.KeysDense :=
  fun _ => iff_of_false (AList.not_mem_empty _) (by simp [len, new, AList.empty_entries])

/-- Below `2 ^ 32` the `u32` conversion keeps the number. -/
theorem toNat_fromU32_ofNat {n : Nat} (h : n < UInt32.size) :
    (FuncRef.fromU32 (UInt32.ofNat n)).index.toNat = n :=
  UInt32.toNat_ofNat_of_lt h

/-- References are equal exactly when their numbers are. -/
theorem funcRef_eq_iff {r r' : FuncRef} : r = r' ↔ r.index.toNat = r'.index.toNat := by
  constructor
  · rintro rfl; rfl
  · intro h
    cases r; cases r'
    exact congrArg FuncRef.mk (UInt32.toNat.inj h)

variable {store : FuncStore} {funcRef : FuncRef}

/-- Inserting under a new key adds one function. -/
theorem len_insert_of_not_mem (func : Function) (h : funcRef ∉ store.table) :
    (⟨store.table.insert funcRef func⟩ : FuncStore).len = store.len + 1 := by
  simp only [len_eq_keys, AList.keys_insert, List.length_cons, List.erase_of_not_mem
    (AList.mem_keys.not.1 h)]

/-- Inserting under a stored key replaces a function. -/
theorem len_insert_of_mem (func : Function) (h : funcRef ∈ store.table) :
    (⟨store.table.insert funcRef func⟩ : FuncStore).len = store.len := by
  rw [len_eq_keys, len_eq_keys, AList.keys_insert, List.length_cons,
    List.length_erase_of_mem (AList.mem_keys.1 h)]
  have := List.length_pos_of_mem (AList.mem_keys.1 h)
  omega

/-- `insert` stores at most one more function. -/
theorem len_insert_le (func : Function) : (store.insert func).1.len ≤ store.len + 1 := by
  by_cases h : (store.insert func).2 ∈ store.table
  · exact (len_insert_of_mem func h).le.trans (Nat.le_succ _)
  · exact (len_insert_of_not_mem func h).le

/-- **`insert` on a dense store.** Below `2 ^ 32` functions the reference `insert` computes is
not stored yet, so nothing is replaced, and the store stays dense with one more function. -/
theorem keysDense_insert (func : Function) (hd : store.KeysDense) (hlen : store.len < UInt32.size) :
    (store.insert func).2 ∉ store.table ∧ (store.insert func).1.len = store.len + 1 ∧
      (store.insert func).1.KeysDense := by
  have hidx := toNat_fromU32_ofNat hlen
  have hfresh : (store.insert func).2 ∉ store.table := by
    rw [hd]; simp only [insert, hidx, lt_irrefl, not_false_eq_true]
  have hlen' := len_insert_of_not_mem func hfresh
  refine ⟨hfresh, hlen', fun r => ?_⟩
  simp only [insert] at hlen' ⊢
  rw [hlen', AList.mem_insert, hd, funcRef_eq_iff, hidx]
  omega

/-- An update of a stored reference keeps the keys, and succeeds. -/
theorem keysDense_update (func : Function) (hd : store.KeysDense) (hmem : funcRef ∈ store.table) :
    (store.update funcRef func).2 = true ∧ (store.update funcRef func).1.len = store.len ∧
      (store.update funcRef func).1.KeysDense := by
  have hlen := len_insert_of_mem func hmem
  refine ⟨decide_eq_true hmem, hlen, fun r => ?_⟩
  simp only [update] at hlen ⊢
  rw [hlen, AList.mem_insert, ← hd]
  constructor
  · rintro (rfl | h); exacts [hmem, h]
  · exact .inr

/-- What `modify` does: replace a stored function by its image. -/
theorem modify_eq_some {f : Function → Function} {store' : FuncStore}
    (h : store.modify funcRef f = some store') :
    ∃ func, store.table.lookup funcRef = some func ∧
      store' = ⟨store.table.replace funcRef (f func)⟩ := by
  obtain ⟨func, hf, rfl⟩ := Option.map_eq_some'.1 h
  exact ⟨func, hf, rfl⟩

/-- `modify` keeps the keys. -/
theorem keysDense_modify (hd : store.KeysDense) {f : Function → Function} {store' : FuncStore}
    (h : store.modify funcRef f = some store') : store'.len = store.len ∧ store'.KeysDense := by
  obtain ⟨func, -, rfl⟩ := modify_eq_some h
  have hlen : (⟨store.table.replace funcRef (f func)⟩ : FuncStore).len = store.len := by
    rw [len_eq_keys, len_eq_keys, AList.keys_replace]
  refine ⟨hlen, fun r => ?_⟩
  rw [hlen, AList.mem_replace, hd]

/-- **`funcs` on a dense store** lists every stored reference once, and nothing else. -/
theorem funcs_of_keysDense (hd : store.KeysDense) (hlen : store.len ≤ UInt32.size) :
    store.funcs.Nodup ∧ ∀ r, r ∈ store.funcs ↔ r ∈ store.table := by
  refine ⟨List.Nodup.map_on (fun m hm n hn h => ?_) (List.nodup_range _), fun r => ?_⟩
  · have hm' := toNat_fromU32_ofNat (lt_of_lt_of_le (List.mem_range.1 hm) hlen)
    have hn' := toNat_fromU32_ofNat (lt_of_lt_of_le (List.mem_range.1 hn) hlen)
    rw [← hm', ← hn', h]
  · rw [hd]
    simp only [funcs, List.mem_map, List.mem_range]
    constructor
    · rintro ⟨n, hn, rfl⟩
      rwa [toNat_fromU32_ofNat (lt_of_lt_of_le hn hlen)]
    · intro hr
      refine ⟨r.index.toNat, hr, ?_⟩
      rw [funcRef_eq_iff, toNat_fromU32_ofNat (UInt32.toNat_lt_size _)]

/-- `view` accepts every stored reference. -/
theorem view_of_mem (h : funcRef ∈ store.table) : store.view funcRef ≠ none := by
  simp [view, AList.lookup_eq_none, h]

/-- `modify` accepts every stored reference. -/
theorem modify_of_mem (h : funcRef ∈ store.table) (f : Function → Function) :
    store.modify funcRef f ≠ none := by
  simp [modify, AList.lookup_eq_none, h]

end FuncStore

/-! ### Threads sharing a store -/

/-- One atomic step of a thread on a shared store. `insert` is two steps: take the guard and read
`len()`, then insert and drop the guard. -/
inductive StoreAction where
  | insertLen (func : Function)
  | insertPut
  | update (funcRef : FuncRef) (func : Function)
  | modify (funcRef : FuncRef) (f : Function → Function)
  | view (funcRef : FuncRef)
  | funcs

/-- A store shared by threads: the map, the holder of the guard, and for each thread inside
`insert` the reference it computed and the function it inserts. -/
structure StoreSystem where
  store : FuncStore
  guard : Option Nat
  pending : Nat → Option (FuncRef × Function)

namespace StoreSystem

/-- No thread has started. -/
def init : StoreSystem :=
  ⟨FuncStore.new, none, fun _ => none⟩

/-- One atomic step of thread `t`; `none` when the thread cannot take it (it is inside `insert`,
or the guard is taken). A call that panics ends with the effect it had: `update` keeps its
insert, `modify` and `view` change nothing. -/
def step (sys : StoreSystem) (t : Nat) : StoreAction → Option StoreSystem
  | .insertLen func =>
      if sys.guard = none then
        some { sys with
          guard := some t
          pending := Function.update sys.pending t
            (some (FuncRef.fromU32 (UInt32.ofNat sys.store.len), func)) }
      else none
  | .insertPut =>
      (sys.pending t).map fun p =>
        ⟨⟨sys.store.table.insert p.1 p.2⟩, none, Function.update sys.pending t none⟩
  | .update funcRef func =>
      if (sys.pending t).isNone then some { sys with store := (sys.store.update funcRef func).1 }
      else none
  | .modify funcRef f =>
      if (sys.pending t).isNone then
        some { sys with store := (sys.store.modify funcRef f).getD sys.store }
      else none
  | .view _ => if (sys.pending t).isNone then some sys else none
  | .funcs => if sys.guard = none then some sys else none

/-- The steps the amended contract allows: updates of stored references only, and inserts below
`2 ^ 32` functions. -/
def Allowed (sys : StoreSystem) : StoreAction → Prop
  | .update funcRef _ => funcRef ∈ sys.store.table
  | .insertLen _ => sys.store.len < UInt32.size
  | _ => True

/-- Whether a step is allowed is decided on the system. -/
instance (sys : StoreSystem) : (a : StoreAction) → Decidable (sys.Allowed a)
  | .update funcRef _ => inferInstanceAs (Decidable (funcRef ∈ sys.store.table))
  | .insertLen _ => inferInstanceAs (Decidable (sys.store.len < UInt32.size))
  | .insertPut | .modify .. | .view _ | .funcs => isTrue trivial

/-- The systems that allowed steps of any threads, in any interleaving, reach from `init`. -/
def Reachable : StoreSystem → Prop :=
  Relation.ReflTransGen (fun sys sys' => ∃ t a, Allowed sys a ∧ sys.step t a = some sys') init

/-- Run a schedule of steps of threads; `none` when a step is not allowed, or its thread cannot
take it. -/
def runAllowed (sys : StoreSystem) : List (Nat × StoreAction) → Option StoreSystem
  | [] => some sys
  | (t, a) :: rest =>
      if sys.Allowed a then (sys.step t a).bind fun sys => sys.runAllowed rest else none

/-- The invariant: the store is dense and below `2 ^ 32` functions; a thread is inside `insert`
exactly when it holds the guard, and then its reference is the current number of functions. -/
structure Inv (sys : StoreSystem) : Prop where
  dense : sys.store.KeysDense
  len_le : sys.store.len ≤ UInt32.size
  pending_iff : ∀ t, (sys.pending t).isSome ↔ sys.guard = some t
  pending_ref : ∀ t p, sys.pending t = some p → p.1.index.toNat = sys.store.len

/-- No thread has started: the empty store and a free guard. -/
theorem inv_init : init.Inv :=
  ⟨FuncStore.keysDense_new, by simp [init, FuncStore.len, FuncStore.new, AList.empty_entries],
    fun _ => by simp [init], fun _ _ => nofun⟩

variable {sys sys' : StoreSystem} {t : Nat} {a : StoreAction}

/-- A thread holding the guard is the only thread inside `insert`. -/
theorem Inv.pending_eq_none (hinv : sys.Inv) {t' : Nat} (hg : sys.guard = some t') (ht : t ≠ t') :
    sys.pending t = none := by
  cases hp : sys.pending t with
  | none => rfl
  | some p =>
      have := (hinv.pending_iff t).1 (by simp [hp])
      exact absurd (Option.some.inj (this.symm.trans hg)) ht

/-- A step that replaces the store by a dense one of the same size keeps the invariant. -/
theorem Inv.with_store (hinv : sys.Inv) {store : FuncStore} (hd : store.KeysDense)
    (hlen : store.len = sys.store.len) : Inv { sys with store } :=
  ⟨hd, hlen ▸ hinv.len_le, hinv.pending_iff, fun t' p hp => hlen ▸ hinv.pending_ref t' p hp⟩

/-- **One allowed step keeps the invariant.** -/
theorem inv_step (hinv : sys.Inv) (ha : sys.Allowed a) (h : sys.step t a = some sys') :
    sys'.Inv := by
  cases a with
  | insertLen func =>
      simp only [step] at h
      split_ifs at h with hg
      cases h
      refine ⟨hinv.dense, hinv.len_le, fun t' => ?_, fun t' p hp => ?_⟩ <;> dsimp only at *
      · by_cases ht : t' = t
        · subst ht; simp
        · simp [Function.update_noteq ht, hinv.pending_iff, hg, Ne.symm ht]
      · by_cases ht : t' = t
        · subst ht
          simp only [Function.update_same, Option.some.injEq] at hp
          subst hp
          exact FuncStore.toNat_fromU32_ofNat ha
        · rw [Function.update_noteq ht] at hp
          exact absurd ((hinv.pending_iff t').1 (by simp [hp])) (by simp [hg])
  | insertPut =>
      obtain ⟨⟨r, func⟩, hp, rfl⟩ := Option.map_eq_some'.1 h
      have hg : sys.guard = some t := (hinv.pending_iff t).1 (by simp [hp])
      have hr := hinv.pending_ref t _ hp
      have hlt : sys.store.len < UInt32.size := hr ▸ UInt32.toNat_lt_size _
      have hfresh : r ∉ sys.store.table := by rw [hinv.dense]; simp [hr]
      have hlen := FuncStore.len_insert_of_not_mem func hfresh
      refine ⟨fun r' => ?_, by simp only at hlen ⊢; omega, fun t' => ?_, fun t' p hp' => ?_⟩
      · simp only at hlen ⊢
        rw [hlen, AList.mem_insert, hinv.dense, FuncStore.funcRef_eq_iff, hr]
        omega
      · by_cases ht : t' = t
        · subst ht; simp
        · simp [Function.update_noteq ht, hinv.pending_eq_none hg ht]
      · by_cases ht : t' = t
        · subst ht; simp at hp'
        · simp [Function.update_noteq ht, hinv.pending_eq_none hg ht] at hp'
  | update funcRef func =>
      simp only [step] at h
      split_ifs at h
      cases h
      obtain ⟨-, hlen, hd⟩ := FuncStore.keysDense_update func hinv.dense ha
      exact hinv.with_store hd hlen
  | modify funcRef f =>
      simp only [step] at h
      split_ifs at h
      cases h
      cases hm : sys.store.modify funcRef f with
      | none => simpa [hm] using hinv
      | some store' =>
          obtain ⟨hlen, hd⟩ := FuncStore.keysDense_modify hinv.dense hm
          simp only [hm, Option.getD_some]
          exact hinv.with_store hd hlen
  | view | funcs =>
      simp only [step] at h
      split_ifs at h
      cases h
      exact hinv

/-- Every reachable system keeps the invariant. -/
theorem Reachable.inv (h : sys.Reachable) : sys.Inv := by
  induction h with
  | refl => exact inv_init
  | tail _ hstep ih =>
      obtain ⟨t, a, ha, hs⟩ := hstep
      exact inv_step ih ha hs

/-- A schedule run from a reachable system ends in a reachable system. -/
theorem Reachable.of_runAllowed {sched : List (Nat × StoreAction)} (h : sys.Reachable)
    (hrun : sys.runAllowed sched = some sys') : sys'.Reachable := by
  induction sched generalizing sys with
  | nil => exact Option.some.inj hrun ▸ h
  | cons p rest ih =>
      simp only [runAllowed] at hrun
      split_ifs at hrun with ha
      obtain ⟨sys₁, h₁, h₂⟩ := Option.bind_eq_some.1 hrun
      exact ih (h.tail ⟨p.1, p.2, ha, h₁⟩) h₂

end StoreSystem

/-- **The key set of the function store.** Under every interleaving of `insert`, `update`,
`modify`, `view` and `funcs` calls in which updates go to stored references and inserts start
below `2 ^ 32` functions: the stored references are exactly `FuncRef(0) .. FuncRef(len - 1)`; the
reference an `insert` is about to store is not stored yet, so no stored function is replaced;
`funcs` lists each stored reference once and nothing else; and `view` and `modify` accept every
stored reference. -/
theorem storeSystem_keysDense {sys : StoreSystem} (h : sys.Reachable) :
    (∀ r : FuncRef, r ∈ sys.store.table ↔ r.index.toNat < sys.store.len) ∧
      (∀ t p, sys.pending t = some p → p.1 ∉ sys.store.table) ∧
      (sys.store.funcs.Nodup ∧ ∀ r, r ∈ sys.store.funcs ↔ r ∈ sys.store.table) ∧
      ∀ r ∈ sys.store.table, sys.store.view r ≠ none ∧ ∀ f, sys.store.modify r f ≠ none := by
  have hinv := h.inv
  refine ⟨hinv.dense, fun t p hp => ?_, FuncStore.funcs_of_keysDense hinv.dense hinv.len_le,
    fun r hr => ⟨FuncStore.view_of_mem hr, FuncStore.modify_of_mem hr⟩⟩
  rw [hinv.dense, hinv.pending_ref t p hp]
  exact lt_irrefl _

/-- A function used by the runs below. -/
def emptyFunction : Function :=
  Function.new ⟨"f", [], none⟩

/-- Threads `0` and `1` insert, one after the other; thread `0` updates its function while
thread `1` is inside `insert`; then thread `0` starts a second insert. -/
def interleavedInserts : List (Nat × StoreAction) :=
  [(0, .insertLen emptyFunction), (0, .insertPut), (1, .insertLen emptyFunction),
    (0, .update ⟨0⟩ emptyFunction), (1, .insertPut), (0, .insertLen emptyFunction)]

/-- After `interleavedInserts` the store holds two functions, thread `0` is about to store under
`FuncRef(2)`, and the key set is as the invariant says. -/
theorem storeSystem_keysDense_interleaved :
    ∃ sys, StoreSystem.init.runAllowed interleavedInserts = some sys ∧ sys.store.len = 2 ∧
      (sys.pending 0).map Prod.fst = some ⟨2⟩ ∧
      ((∀ r : FuncRef, r ∈ sys.store.table ↔ r.index.toNat < sys.store.len) ∧
        (∀ t p, sys.pending t = some p → p.1 ∉ sys.store.table) ∧
        (sys.store.funcs.Nodup ∧ ∀ r, r ∈ sys.store.funcs ↔ r ∈ sys.store.table) ∧
        ∀ r ∈ sys.store.table, sys.store.view r ≠ none ∧ ∀ f, sys.store.modify r f ≠ none) :=
  have hrun : StoreSystem.init.runAllowed interleavedInserts = some _ := rfl
  ⟨_, hrun, rfl, rfl, storeSystem_keysDense (StoreSystem.Reachable.of_runAllowed .refl hrun)⟩

/-- **A failed update breaks density.** On a new store, `update(FuncRef(1), f)` fails, but the
store now holds `FuncRef(1)` and is no longer empty; the next `insert` then computes
`FuncRef(1)` (one function is stored), which is already a key: it replaces the function the
failed update left. -/
theorem update_absent_then_insert_replaces :
    (FuncStore.new.update ⟨1⟩ emptyFunction).2 = false ∧
      (FuncStore.new.update ⟨1⟩ emptyFunction).1.table.keys = [⟨1⟩] ∧
      ((FuncStore.new.update ⟨1⟩ emptyFunction).1.insert emptyFunction).2 = ⟨1⟩ ∧
      ((StoreSystem.init.step 0 (.update ⟨1⟩ emptyFunction)).bind fun sys =>
        (sys.step 0 (.insertLen emptyFunction)).bind fun sys =>
          (sys.pending 0).map fun p => decide (p.1 ∈ sys.store.table)) = some true := by
  decide

/-- **`insert` takes effect at its second step.** In every reachable system, a thread inside
`insert` stores, at its second step, exactly what an atomic `FuncStore::insert` of its function
stores at that moment, under the reference that insert returns. So the two steps under the
guard are one atomic insert, the way `Sonatina.Module.ModuleBuilder` runs it. -/
theorem insertPut_linearizes {sys : StoreSystem} (h : sys.Reachable) {t : Nat} {r : FuncRef}
    {func : Function} (hp : sys.pending t = some (r, func)) :
    (sys.store.insert func).2 = r ∧
      sys.step t .insertPut =
        some ⟨(sys.store.insert func).1, none, Function.update sys.pending t none⟩ := by
  have hr := h.inv.pending_ref t _ hp
  have href : (sys.store.insert func).2 = r := by
    rw [FuncStore.funcRef_eq_iff, hr]
    exact FuncStore.toNat_fromU32_ofNat (hr ▸ UInt32.toNat_lt_size _)
  refine ⟨href, ?_⟩
  simp only [StoreSystem.step, hp, Option.map_some']
  rw [← href]
  rfl

/-- A thread that has read the length of the new store puts its function under `FuncRef(0)`. -/
theorem insertPut_linearizes_first :
    ({ StoreSystem.init with
        guard := some 0
        pending := Function.update StoreSystem.init.pending 0 (some (⟨0⟩, emptyFunction)) } :
      StoreSystem).Reachable ∧
      (FuncStore.new.insert emptyFunction).2 = ⟨0⟩ ∧
      StoreSystem.step { StoreSystem.init with
          guard := some 0
          pending := Function.update StoreSystem.init.pending 0 (some (⟨0⟩, emptyFunction)) }
        0 .insertPut =
        some ⟨(FuncStore.new.insert emptyFunction).1, none,
          Function.update (Function.update StoreSystem.init.pending 0 (some (⟨0⟩, emptyFunction)))
            0 none⟩ :=
  have hreach : ({ StoreSystem.init with
      guard := some 0
      pending := Function.update StoreSystem.init.pending 0 (some (⟨0⟩, emptyFunction)) } :
      StoreSystem).Reachable :=
    .single ⟨0, .insertLen emptyFunction, (by decide : FuncStore.new.len < UInt32.size), rfl⟩
  ⟨hreach, insertPut_linearizes hreach rfl⟩

end Sonatina
