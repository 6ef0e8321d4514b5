import Sonatina.Module.FuncStore

/-!
# Declaring Functions from Several Threads

`ModuleBuilder::declare_function` (`module_builder.rs`) looks the name up in the shared map
`declared_funcs`; on a miss it inserts a new function into the function store, then records
`name → func_ref` in `declared_funcs` and `func_ref → sig` in the context's `declared_funcs`.
Clones of a builder share these maps, so threads interleave the four map steps of their calls;
`lookup_func` is one more lookup. Each map step is atomic, and `FuncStore::insert` is atomic
under its guard (`insertPut_linearizes`). `ModuleBuilder.declareFunction` is a call that runs
with no other step in between; `Sonatina.Module.Declare` shows that it is what the interleaved
model does for such a call, and proves its contract under sequential use.

Two schedules show what the interleaving allows. Two threads declaring the same name can both
miss the lookup and both insert: they get different references, and the store holds two
functions for the name (`declareFunction_same_name_race`). A thread can record the name before
the signature: in between, `lookup_func` and a second `declare_function` return a reference whose
signature is not there yet (`lookupFunc_before_sig`).

What does hold under every interleaving (`moduleSystem_registered`): every reference that
`declare_function` returns, or that the name map holds, is stored in the function store under a
function declared with that very name, so two names never share a reference. And the window of
the second schedule is the only one (`lookupFunc_sig_window`): a reference in the name map lacks
its signature only while the thread that recorded it has not yet recorded the signature, so once
no call is running, `func_sig` succeeds on every reference `lookup_func` finds.

## Main results

* `ModuleSystem.step`: one atomic map step of one thread.
* `moduleSystem_registered`: references are registered for their names, under every
  interleaving.
* `lookupFunc_sig_window`: a looked-up reference lacks its signature only while its call runs.
* `declareFunction_same_name_race`, `lookupFunc_before_sig`: the two failing schedules.
-/

namespace Sonatina

/-- An inserted entry is found under its key, and every other entry under its own. -/
theorem AList.lookup_insert_eq_some {α β : Type} [DecidableEq α] {m : AList fun _ : α => β}
    {k a : α} {v b : β} :
    (m.insert k v).lookup a = some b ↔ a = k ∧ b = v ∨ a ≠ k ∧ m.lookup a = some b := by
  by_cases ha : a = k
  · subst ha
    simp [AList.lookup_insert, eq_comm]
  · simp [AList.lookup_insert_ne ha, ha]

/-- The module context (`ModuleCtx`); of its fields only the signature table `declared_funcs` is
read or written by the modelled methods. -/
structure ModuleCtx where
  declaredFuncs : AList fun _ : FuncRef => Signature

/-- The signature of a declared function (`func_sig`); an undeclared reference panics. -/
def ModuleCtx.funcSig (ctx : ModuleCtx) (funcRef : FuncRef) : Option Signature :=
  ctx.declaredFuncs.lookup funcRef

/-- The module builder (`ModuleBuilder`): the function store, the context, and the map from
names to references. -/
structure ModuleBuilder where
  funcs : FuncStore
  ctx : ModuleCtx
  declaredFuncs : AList fun _ : String => FuncRef

namespace ModuleBuilder

/-- A builder with nothing declared (`ModuleBuilder::new`). -/
def new : ModuleBuilder :=
  ⟨FuncStore.new, ⟨∅⟩, ∅⟩

/-- The reference declared under a name (`lookup_func`). -/
def lookupFunc (mb : ModuleBuilder) (name : String) : Option FuncRef :=
  mb.declaredFuncs.lookup name

/-- `declare_function` run by one thread with no other step in between: the reference recorded
for the name, or a new function inserted into the store and recorded under the name, with its
signature in the context. -/
def declareFunction (mb : ModuleBuilder) (sig : Signature) : ModuleBuilder × FuncRef :=
  match mb.declaredFuncs.lookup sig.name with
  | some funcRef => (mb, funcRef)
  | none =>
      let (funcs, funcRef) := mb.funcs.insert (Function.new sig)
      ({ funcs
         ctx := ⟨mb.ctx.declaredFuncs.insert funcRef sig⟩
         declaredFuncs := mb.declaredFuncs.insert sig.name funcRef }, funcRef)

/-- A reference is registered for a name when the store holds, under it, a function declared
with that name. -/
def Registered (mb : ModuleBuilder) (name : String) (funcRef : FuncRef) : Prop :=
  ∃ func, mb.funcs.view funcRef = some func ∧ func.sig.name = name

end ModuleBuilder

/-- Where a thread is inside `declare_function`, after each of its map steps. -/
inductive DeclarePc where
  | missed (sig : Signature)
  | inserted (sig : Signature) (funcRef : FuncRef)
  | named (sig : Signature) (funcRef : FuncRef)

/-- The references a thread inside `declare_function` holds, with the name it declares. -/
def DeclarePc.holds : DeclarePc → Option (String × FuncRef)
  | .missed _ => none
  | .inserted sig funcRef | .named sig funcRef => some (sig.name, funcRef)

/-- The atomic map steps of `declare_function`: the lookup of the name, the insert into the
function store, the insert into the name map, the insert into the signature table. -/
inductive DeclareAction where
  | get (sig : Signature)
  | insertFunc
  | insertName
  | insertSig

/-- Threads sharing a module builder, with the name and result of each call that returned. -/
structure ModuleSystem where
  builder : ModuleBuilder
  threads : Nat → Option DeclarePc
  returned : List (String × FuncRef)

namespace ModuleSystem

/-- No call has started. -/
def init : ModuleSystem :=
  ⟨ModuleBuilder.new, fun _ => none, []⟩

/-- One atomic step of thread `t`; `none` when the thread is not at that step. -/
def step (sys : ModuleSystem) (t : Nat) : DeclareAction → Option ModuleSystem
  | .get sig =>
      match sys.threads t, sys.builder.declaredFuncs.lookup sig.name with
      | none, some funcRef => some { sys with returned := sys.returned ++ [(sig.name, funcRef)] }
      | none, none =>
          some { sys with threads := Function.update sys.threads t (some (.missed sig)) }
      | some _, _ => none
  | .insertFunc =>
      match sys.threads t with
      | some (.missed sig) =>
          let (funcs, funcRef) := sys.builder.funcs.insert (Function.new sig)
          some { sys with
            builder := { sys.builder with funcs }
            threads := Function.update sys.threads t (some (.inserted sig funcRef)) }
      | _ => none
  | .insertName =>
      match sys.threads t with
      | some (.inserted sig funcRef) =>
          some { sys with
            builder := { sys.builder with
              declaredFuncs := sys.builder.declaredFuncs.insert sig.name funcRef }
            threads := Function.update sys.threads t (some (.named sig funcRef)) }
      | _ => none
  | .insertSig =>
      match sys.threads t with
      | some (.named sig funcRef) =>
          some { sys with
            builder := { sys.builder with
              ctx := ⟨sys.builder.ctx.declaredFuncs.insert funcRef sig⟩ }
            threads := Function.update sys.threads t none
            returned := sys.returned ++ [(sig.name, funcRef)] }
      | _ => none

/-- Run a schedule of steps; `none` when a thread is not at its scheduled step. -/
def runSchedule (sys : ModuleSystem) : List (Nat × DeclareAction) → Option ModuleSystem
  | [] => some sys
  | (t, a) :: rest => (sys.step t a).bind fun sys => sys.runSchedule rest

/-- The systems some interleaving reaches from `init`, while the store holds fewer than
`2 ^ 32` functions at each insert. -/
def Reachable : ModuleSystem → Prop :=
  Relation.ReflTransGen
    (fun sys sys' => ∃ t a, (a = .insertFunc → sys.builder.funcs.len < UInt32.size) ∧
      sys.step t a = some sys') init

/-- The invariant: the store is dense; every reference in the name map, in a thread, or returned
is registered for its name; every signature in the table is that of the stored function. -/
structure Inv (sys : ModuleSystem) : Prop where
  dense : sys.builder.funcs.KeysDense
  len_le : sys.builder.funcs.len ≤ UInt32.size
  names : ∀ name funcRef, sys.builder.lookupFunc name = some funcRef →
    sys.builder.Registered name funcRef
  held : ∀ t pc name funcRef, sys.threads t = some pc → pc.holds = some (name, funcRef) →
    sys.builder.Registered name funcRef
  returned : ∀ name funcRef, (name, funcRef) ∈ sys.returned → sys.builder.Registered name funcRef
  sigs : ∀ funcRef sig, sys.builder.ctx.funcSig funcRef = some sig →
    sys.builder.Registered sig.name funcRef

/-- No call has started: nothing is declared. -/
theorem inv_init : init.Inv := by
  refine ⟨FuncStore.keysDense_new, ?_, fun _ _ h => (nomatch h), fun _ _ _ _ h => (nomatch h),
    fun _ _ => nofun, fun _ _ h => (nomatch h)⟩
  simp [init, ModuleBuilder.new, FuncStore.len, FuncStore.new, AList.empty_entries]

variable {sys sys' : ModuleSystem} {t : Nat} {a : DeclareAction}

/-- Registration survives an insert at a reference the store does not hold. -/
theorem registered_insert {mb : ModuleBuilder} {name : String} {funcRef r : FuncRef}
    (func : Function) (hr : mb.Registered name funcRef) (hfresh : r ∉ mb.funcs.table) :
    ModuleBuilder.Registered { mb with funcs := ⟨mb.funcs.table.insert r func⟩ } name funcRef := by
  obtain ⟨f, hf, hname⟩ := hr
  have hne : funcRef ≠ r := by
    rintro rfl
    exact hfresh (AList.lookup_isSome.1 (by rw [← FuncStore.view, hf]; rfl))
  exact ⟨f, by rw [FuncStore.view, AList.lookup_insert_ne hne]; exact hf, hname⟩

/-- The function the store gets at an insert is registered for the declared name. -/
theorem registered_new {mb : ModuleBuilder} (sig : Signature) (r : FuncRef) :
    ModuleBuilder.Registered { mb with funcs := ⟨mb.funcs.table.insert r (Function.new sig)⟩ }
      sig.name r :=
  ⟨_, AList.lookup_insert _, rfl⟩

/-- A property of the threads inside calls survives a step of thread `t` when it holds of the
other threads and of `t`'s new position. -/
theorem forall_update {threads : Nat → Option DeclarePc} {pc' : Option DeclarePc}
    {P : Nat → DeclarePc → Prop} (hold : ∀ t' pc, t' ≠ t → threads t' = some pc → P t' pc)
    (hnew : ∀ pc, pc' = some pc → P t pc) :
    ∀ t' pc, Function.update threads t pc' t' = some pc → P t' pc := by
  intro t' pc h
  by_cases ht : t' = t
  · subst ht
    rw [Function.update_same] at h
    exact hnew pc h
  · rw [Function.update_noteq ht] at h
    exact hold t' pc ht h

/-- After thread `t` moves to `pc'`, every thread holds what it held before, except `t`, which
holds what `pc'` holds. -/
theorem held_update {threads : Nat → Option DeclarePc} {pc' : Option DeclarePc}
    {P : String → FuncRef → Prop}
    (hold : ∀ t' pc name r, threads t' = some pc → pc.holds = some (name, r) → P name r)
    (hnew : ∀ pc name r, pc' = some pc → pc.holds = some (name, r) → P name r) :
    ∀ t' pc name r, Function.update threads t pc' t' = some pc → pc.holds = some (name, r) →
      P name r :=
  fun t' pc name r h =>
    forall_update (P := fun _ pc => ∀ name r, pc.holds = some (name, r) → P name r)
      (fun t' pc _ h name r => hold t' pc name r h) (fun pc h name r => hnew pc name r h)
      t' pc h name r

/-- A pair appended to the returned list keeps a property every pair has. -/
theorem forall_returned_append {l : List (String × FuncRef)} {P : String → FuncRef → Prop}
    {name : String} {funcRef : FuncRef} (hl : ∀ n r, (n, r) ∈ l → P n r) (hp : P name funcRef) :
    ∀ n r, (n, r) ∈ l ++ [(name, funcRef)] → P n r := by
  intro n r hr
  rcases List.mem_append.1 hr with hr | hr
  · exact hl n r hr
  · obtain ⟨rfl, rfl⟩ := Prod.mk.inj (List.mem_singleton.1 hr)
    exact hp

/-- An entry inserted into a map keeps a property every entry has. -/
theorem forall_lookup_insert {α β : Type} [DecidableEq α] {m : AList fun _ : α => β} {k : α}
    {v : β} {P : α → β → Prop} (hm : ∀ a b, m.lookup a = some b → P a b) (hkv : P k v) :
    ∀ a b, (m.insert k v).lookup a = some b → P a b := by
  intro a b h
  rcases AList.lookup_insert_eq_some.1 h with ⟨rfl, rfl⟩ | ⟨-, h⟩
  exacts [hkv, hm a b h]

/-- **What one step can do.** A lookup that hits returns; a lookup that misses enters the call;
the three inserts each move the thread one step on, and the last returns. -/
theorem step_cases (h : sys.step t a = some sys') :
    (∃ sig funcRef, a = .get sig ∧ sys.threads t = none ∧
      sys.builder.lookupFunc sig.name = some funcRef ∧
      sys' = { sys with returned := sys.returned ++ [(sig.name, funcRef)] }) ∨
    (∃ sig, a = .get sig ∧ sys.threads t = none ∧ sys.builder.lookupFunc sig.name = none ∧
      sys' = { sys with threads := Function.update sys.threads t (some (.missed sig)) }) ∨
    (∃ sig, a = .insertFunc ∧ sys.threads t = some (.missed sig) ∧
      sys' = { sys with
        builder := { sys.builder with funcs := (sys.builder.funcs.insert (Function.new sig)).1 }
        threads := Function.update sys.threads t
          (some (.inserted sig (sys.builder.funcs.insert (Function.new sig)).2)) }) ∨
    (∃ sig funcRef, a = .insertName ∧ sys.threads t = some (.inserted sig funcRef) ∧
      sys' = { sys with
        builder := { sys.builder with
          declaredFuncs := sys.builder.declaredFuncs.insert sig.name funcRef }
        threads := Function.update sys.threads t (some (.named sig funcRef)) }) ∨
    (∃ sig funcRef, a = .insertSig ∧ sys.threads t = some (.named sig funcRef) ∧
      sys' = { sys with
        builder := { sys.builder with ctx := ⟨sys.builder.ctx.declaredFuncs.insert funcRef sig⟩ }
        threads := Function.update sys.threads t none
        returned := sys.returned ++ [(sig.name, funcRef)] }) := by
  cases a with
  | get sig =>
      simp only [step] at h
      split at h
      · next funcRef ht hl => cases h; exact .inl ⟨sig, funcRef, rfl, ht, hl, rfl⟩
      · next ht hl => cases h; exact .inr (.inl ⟨sig, rfl, ht, hl, rfl⟩)
      · cases h
  | insertFunc =>
      simp only [step] at h
      split at h
      · next sig hpc => cases h; exact .inr (.inr (.inl ⟨sig, rfl, hpc, rfl⟩))
      · cases h
  | insertName =>
      simp only [step] at h
      split at h
      · next sig funcRef hpc =>
        cases h
        exact .inr (.inr (.inr (.inl ⟨sig, funcRef, rfl, hpc, rfl⟩)))
      · cases h
  | insertSig =>
      simp only [step] at h
      split at h
      · next sig funcRef hpc =>
        cases h
        exact .inr (.inr (.inr (.inr ⟨sig, funcRef, rfl, hpc, rfl⟩)))
      · cases h

/-- **One step keeps the invariant.** -/
theorem inv_step (hinv : sys.Inv) (hlen : a = .insertFunc → sys.builder.funcs.len < UInt32.size)
    (h : sys.step t a = some sys') : sys'.Inv := by
  rcases step_cases h with ⟨sig, r, -, -, hl, rfl⟩ | ⟨sig, -, -, -, rfl⟩ | ⟨sig, rfl, -, rfl⟩ |
    ⟨sig, r, -, hpc, rfl⟩ | ⟨sig, r, -, hpc, rfl⟩
  · exact { hinv with returned := forall_returned_append hinv.returned (hinv.names _ _ hl) }
  · exact { hinv with held := held_update hinv.held fun _ _ _ h hpc => by cases h; cases hpc }
  · obtain ⟨hfresh, hlen', hdense⟩ := FuncStore.keysDense_insert (Function.new sig) hinv.dense
      (hlen rfl)
    have keep := fun {name} {r} (hr : sys.builder.Registered name r) =>
      registered_insert (Function.new sig) hr hfresh
    refine ⟨hdense, by rw [hlen']; exact hlen rfl, fun name r hr => keep (hinv.names name r hr),
      held_update (fun t' pc name r ht hpc => keep (hinv.held t' pc name r ht hpc)) ?_,
      fun name r hr => keep (hinv.returned name r hr), fun r sig' hr => keep (hinv.sigs r sig' hr)⟩
    intro pc name r h hpc
    cases h
    cases hpc
    exact registered_new sig _
  · have hreg := hinv.held t _ sig.name r hpc rfl
    exact { hinv with
      names := forall_lookup_insert hinv.names hreg
      held := held_update hinv.held fun _ _ _ h hpc' => by cases h; cases hpc'; exact hreg }
  · have hreg := hinv.held t _ sig.name r hpc rfl
    exact ⟨hinv.dense, hinv.len_le, hinv.names, held_update hinv.held (fun _ _ _ h _ => by cases h),
      forall_returned_append hinv.returned hreg,
      forall_lookup_insert (P := fun r (sig : Signature) => sys.builder.Registered sig.name r)
        hinv.sigs hreg⟩

/-- Every reachable system keeps the invariant. -/
theorem Reachable.inv (h : sys.Reachable) : sys.Inv := by
  induction h with
  | refl => exact inv_init
  | tail _ hstep ih =>
      obtain ⟨t, a, hlen, hs⟩ := hstep
      exact inv_step ih hlen hs

/-- A step stores at most one more function. -/
theorem step_len_le (h : sys.step t a = some sys') :
    sys'.builder.funcs.len ≤ sys.builder.funcs.len + 1 := by
  rcases step_cases h with ⟨-, -, -, -, -, rfl⟩ | ⟨-, -, -, -, rfl⟩ | ⟨sig, -, -, rfl⟩ |
    ⟨-, -, -, -, rfl⟩ | ⟨-, -, -, -, rfl⟩ <;>
    first | exact Nat.le_succ _ | exact FuncStore.len_insert_le _

/-- A schedule run from a reachable system, with room for one more function per step, ends in a
reachable system. -/
theorem Reachable.of_runSchedule {sched : List (Nat × DeclareAction)} (h : sys.Reachable)
    (hrun : sys.runSchedule sched = some sys')
    (hroom : sys.builder.funcs.len + sched.length ≤ UInt32.size) : sys'.Reachable := by
  induction sched generalizing sys with
  | nil => exact Option.some.inj hrun ▸ h
  | cons p rest ih =>
      obtain ⟨sys₁, h₁, h₂⟩ := Option.bind_eq_some.1 hrun
      have hlen := step_len_le h₁
      rw [List.length_cons] at hroom
      exact ih (h.tail ⟨p.1, p.2, fun _ => by omega, h₁⟩) h₂ (by omega)

end ModuleSystem

/-! ### Two schedules -/

/-- The signature both threads declare: a function `f` without parameters. -/
def sigF : Signature :=
  ⟨"f", [], none⟩

/-- Two threads declare `f`: both look it up before either inserts. -/
def sameNameRace : List (Nat × DeclareAction) :=
  [(0, .get sigF), (1, .get sigF), (0, .insertFunc), (1, .insertFunc), (0, .insertName),
    (0, .insertSig), (1, .insertName), (1, .insertSig)]

/-- Thread `0` declares `f` up to the insert into the name map; thread `1` then declares `f`. -/
def nameBeforeSig : List (Nat × DeclareAction) :=
  [(0, .get sigF), (0, .insertFunc), (0, .insertName), (1, .get sigF)]

/-- **What every interleaving keeps.** In every system that interleaved `declare_function` steps
reach (below `2 ^ 32` functions): a reference that a call returned, or that `lookup_func` finds,
is stored in the function store under a function declared with that name, so `FuncStore::view`
on it cannot fail; and two calls that returned the same reference were called with the same
name, so calls with different names return different references. -/
theorem moduleSystem_registered {sys : ModuleSystem} (h : sys.Reachable) :
    (∀ name funcRef,
      (name, funcRef) ∈ sys.returned ∨ sys.builder.lookupFunc name = some funcRef →
        ∃ func, sys.builder.funcs.view funcRef = some func ∧ func.sig.name = name) ∧
    (∀ name name' funcRef, (name, funcRef) ∈ sys.returned → (name', funcRef) ∈ sys.returned →
      name = name') := by
  have hinv := h.inv
  have hreg : ∀ name funcRef, (name, funcRef) ∈ sys.returned ∨
      sys.builder.lookupFunc name = some funcRef → sys.builder.Registered name funcRef :=
    fun name funcRef hr => hr.elim (hinv.returned name funcRef) (hinv.names name funcRef)
  refine ⟨hreg, fun name name' funcRef hr hr' => ?_⟩
  obtain ⟨func, hf, rfl⟩ := hreg _ _ (.inl hr)
  obtain ⟨func', hf', rfl⟩ := hreg _ _ (.inl hr')
  rw [Option.some.inj (hf.symm.trans hf')]

/-- The race of `sameNameRace` ends in a reachable system, in which both references returned for
`f` are stored under functions named `f`. -/
theorem moduleSystem_registered_race :
    ∃ sys, ModuleSystem.init.runSchedule sameNameRace = some sys ∧
      sys.returned = [("f", ⟨0⟩), ("f", ⟨1⟩)] ∧
      ((∀ name funcRef,
          (name, funcRef) ∈ sys.returned ∨ sys.builder.lookupFunc name = some funcRef →
          ∃ func, sys.builder.funcs.view funcRef = some func ∧ func.sig.name = name) ∧
        (∀ name name' funcRef, (name, funcRef) ∈ sys.returned → (name', funcRef) ∈ sys.returned →
          name = name')) :=
  have hrun : ModuleSystem.init.runSchedule sameNameRace = some _ := rfl
  ⟨_, hrun, rfl,
    moduleSystem_registered (ModuleSystem.Reachable.of_runSchedule .refl hrun (by decide))⟩

/-! ### The signature window -/

namespace ModuleSystem

/-- A reference in the name map has a signature of its name in the context, or belongs to a
thread that has recorded the name and not yet the signature. -/
def SigWindow (sys : ModuleSystem) : Prop :=
  ∀ name r, sys.builder.lookupFunc name = some r →
    (∃ sig, sys.builder.ctx.funcSig r = some sig ∧ sig.name = name) ∨
      ∃ t sig, sys.threads t = some (.named sig r) ∧ sig.name = name

variable {sys sys' : ModuleSystem} {t : Nat} {a : DeclareAction}

/-- A named thread stays named after a step of a thread `t` that was not named. -/
theorem named_update {pc' : Option DeclarePc} (ht : ∀ sig r, sys.threads t ≠ some (.named sig r))
    {t' : Nat} {sig : Signature} {r : FuncRef} (h : sys.threads t' = some (.named sig r)) :
    Function.update sys.threads t pc' t' = some (.named sig r) := by
  by_cases e : t' = t
  · subst e
    exact absurd h (ht sig r)
  · rwa [Function.update_noteq e]

/-- A step that keeps the name map and the signature table, and every named thread, keeps the
window. -/
theorem sigWindow_of_named (hw : sys.SigWindow)
    (hl : sys'.builder.declaredFuncs = sys.builder.declaredFuncs)
    (hc : sys'.builder.ctx = sys.builder.ctx)
    (hnamed : ∀ t' sig r, sys.threads t' = some (.named sig r) →
      sys'.threads t' = some (.named sig r)) : sys'.SigWindow := by
  intro name r hr
  rw [ModuleBuilder.lookupFunc, hl] at hr
  rw [ModuleCtx.funcSig, hc]
  exact (hw name r hr).imp id fun ⟨t', sig', h', hn⟩ => ⟨t', sig', hnamed t' sig' r h', hn⟩

/-- **One step keeps the window.** Only the thread that records a name opens it, and it closes
it with its next step. -/
theorem sigWindow_step (hinv : sys.Inv) (hw : sys.SigWindow) (h : sys.step t a = some sys') :
    sys'.SigWindow := by
  rcases step_cases h with ⟨sig, r, -, -, -, rfl⟩ | ⟨sig, -, ht, -, rfl⟩ | ⟨sig, -, hpc, rfl⟩ |
    ⟨sig, r, -, hpc, rfl⟩ | ⟨sig, r, -, hpc, rfl⟩
  · exact hw
  · exact sigWindow_of_named hw rfl rfl fun _ _ _ =>
      named_update fun _ _ h => nomatch ht.symm.trans h
  · exact sigWindow_of_named hw rfl rfl fun _ _ _ =>
      named_update fun _ _ h => nomatch hpc.symm.trans h
  · intro name r' hr
    rcases AList.lookup_insert_eq_some.1 hr with ⟨rfl, rfl⟩ | ⟨-, hr⟩
    · exact .inr ⟨t, sig, Function.update_same _ _ _, rfl⟩
    · exact (hw name r' hr).imp id fun ⟨t', sig', h', hn⟩ =>
        ⟨t', sig', named_update (fun _ _ h => nomatch hpc.symm.trans h) h', hn⟩
  · have hreg := hinv.held t _ sig.name r hpc rfl
    intro name r' hr
    by_cases e : r' = r
    · subst e
      obtain ⟨func, hf, hfn⟩ := hinv.names name r' hr
      obtain ⟨func', hf', hfn'⟩ := hreg
      refine .inl ⟨sig, AList.lookup_insert _, ?_⟩
      rw [← hfn', ← hfn, Option.some.inj (hf'.symm.trans hf)]
    · rcases hw name r' hr with ⟨sig', hs, hn⟩ | ⟨t', sig', h', hn⟩
      · exact .inl ⟨sig', (AList.lookup_insert_ne e).trans hs, hn⟩
      · have e' : t' ≠ t := by rintro rfl; rw [hpc] at h'; cases h'; exact e rfl
        exact .inr ⟨t', sig', (Function.update_noteq e' _ _).trans h', hn⟩

end ModuleSystem

/-- **A reference without its signature is one in flight.** In every system that interleaved
`declare_function` steps reach (below `2 ^ 32` functions), a reference that `lookup_func` finds
has a signature of its name in the context, unless the thread that recorded it is between its
insert into the name map and its insert into the signature table. So when no call is running,
`func_sig`, and with it `FuncRef::as_ptr_ty`, succeeds on every reference `lookup_func` finds. -/
theorem lookupFunc_sig_window {sys : ModuleSystem} (h : sys.Reachable) :
    (∀ name r, sys.builder.lookupFunc name = some r →
      (∃ sig, sys.builder.ctx.funcSig r = some sig ∧ sig.name = name) ∨
        ∃ t sig, sys.threads t = some (.named sig r) ∧ sig.name = name) ∧
      ((∀ t, sys.threads t = none) → ∀ name r, sys.builder.lookupFunc name = some r →
        ∃ sig, sys.builder.ctx.funcSig r = some sig ∧ sig.name = name) := by
  have hw : sys.SigWindow := by
    induction h with
    | refl => exact fun _ _ h => (nomatch h)
    | tail hr hstep ih =>
        obtain ⟨t, a, -, hs⟩ := hstep
        exact ModuleSystem.sigWindow_step (ModuleSystem.Reachable.inv hr) ih hs
  refine ⟨hw, fun hidle name r hr => ?_⟩
  rcases hw name r hr with hs | ⟨t, sig, ht, -⟩
  · exact hs
  · rw [hidle t] at ht
    cases ht

/-- After `nameBeforeSig` the window is open: `lookup_func("f")` finds `FuncRef(0)`, which has no
signature yet, and thread `0` is the one between its two inserts. -/
theorem lookupFunc_sig_window_nameBeforeSig :
    ∃ sys, ModuleSystem.init.runSchedule nameBeforeSig = some sys ∧
      sys.builder.lookupFunc "f" = some ⟨0⟩ ∧ sys.builder.ctx.funcSig ⟨0⟩ = none ∧
      ((∀ name r, sys.builder.lookupFunc name = some r →
        (∃ sig, sys.builder.ctx.funcSig r = some sig ∧ sig.name = name) ∨
          ∃ t sig, sys.threads t = some (.named sig r) ∧ sig.name = name) ∧
        ((∀ t, sys.threads t = none) → ∀ name r, sys.builder.lookupFunc name = some r →
          ∃ sig, sys.builder.ctx.funcSig r = some sig ∧ sig.name = name)) :=
  have hrun : ModuleSystem.init.runSchedule nameBeforeSig = some _ := rfl
  ⟨_, hrun, rfl, rfl,
    lookupFunc_sig_window (ModuleSystem.Reachable.of_runSchedule .refl hrun (by decide))⟩

/-! ### The failing schedules -/

/-- **Two calls with the same name, two references.** In the schedule `sameNameRace` the first
thread's call returns `FuncRef(0)` and the second's `FuncRef(1)`; the store holds two functions
for the one name `f`, and `lookup_func("f")` answers the second reference only. -/
theorem declareFunction_same_name_race :
    (ModuleSystem.init.runSchedule sameNameRace).map
        (fun sys => (sys.returned, sys.builder.funcs.len, sys.builder.lookupFunc "f")) =
      some ([("f", ⟨0⟩), ("f", ⟨1⟩)], 2, some ⟨1⟩) := by
  decide

/-- **A reference visible before its signature.** After the schedule `nameBeforeSig`,
`lookup_func("f")` returns `FuncRef(0)` and thread `1`'s `declare_function` has returned
`FuncRef(0)`, but the context's signature table has no entry for it: `func_sig(FuncRef(0))`, and
so `FuncRef::as_ptr_ty`, panics. -/
theorem lookupFunc_before_sig :
    (ModuleSystem.init.runSchedule nameBeforeSig).map
        (fun sys => (sys.builder.lookupFunc "f", sys.returned, sys.builder.ctx.funcSig ⟨0⟩)) =
      some (some ⟨0⟩, [("f", ⟨0⟩)], none) := by
  decide

end Sonatina
