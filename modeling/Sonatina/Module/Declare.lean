import Sonatina.Module.ModuleBuilder

/-!
# Declaring Functions One at a Time

`ModuleBuilder.declareFunction` is `declare_function` run by one thread with no other step in
between. It is what the interleaved model does when a thread runs its call alone: the lookup
alone when the name is declared, all four map steps otherwise (`runSchedule_declareSteps`).

Run one call at a time, `declare_function` keeps its contract, the one that fails under
interleaving (`declareFunction_same_name_race`, `lookupFunc_before_sig`). Every returned
reference is recorded under its name, with a signature of that name in the context. Every later
call with the name returns the same reference and changes nothing, and a call with another name
returns another reference. Every stored function is recorded under exactly one name. All of this
rests on one invariant of sequential use (`SeqInv`): the names map onto exactly the stored
references, one name each, and each has its signature.

Sequential use is more than agreement by name needs. Interleavings agree by name too, as long as
no two calls with one name overlap: a lookup misses only while no other thread is inside a call
with that name (`declareFunction_exclusive`). The race of `declareFunction_same_name_race` is
two such overlapping calls.

## Main results

* `runSchedule_declareSteps`: a call that runs alone is `declareFunction`.
* `seqInv_declareFunction`: one call keeps the invariant.
* `declareFunction_sequential`: the contract of `declare_function` under sequential use.
* `declareFunction_exclusive`: agreement by name under interleavings without overlapping
  same-name calls.
-/

namespace Sonatina

namespace ModuleBuilder

variable {mb mb' : ModuleBuilder} {sig : Signature} {name : String} {r : FuncRef}

/-- A declared name returns its reference and changes nothing. -/
theorem declareFunction_of_lookup_some (h : mb.lookupFunc sig.name = some r) :
    mb.declareFunction sig = (mb, r) := by
  unfold lookupFunc at h
  simp only [declareFunction, h]

/-- A new name inserts a function and records the name and the signature. -/
theorem declareFunction_of_lookup_none (h : mb.lookupFunc sig.name = none) :
    mb.declareFunction sig =
      ({ funcs := (mb.funcs.insert (Function.new sig)).1
         ctx := ⟨mb.ctx.declaredFuncs.insert (mb.funcs.insert (Function.new sig)).2 sig⟩
         declaredFuncs :=
          mb.declaredFuncs.insert sig.name (mb.funcs.insert (Function.new sig)).2 },
        (mb.funcs.insert (Function.new sig)).2) := by
  unfold lookupFunc at h
  simp only [declareFunction, h]

/-- After a call, the name is recorded with the returned reference. -/
theorem lookupFunc_declareFunction_self :
    (mb.declareFunction sig).1.lookupFunc sig.name = some (mb.declareFunction sig).2 := by
  cases hl : mb.lookupFunc sig.name with
  | some r => rw [declareFunction_of_lookup_some hl]; exact hl
  | none => rw [declareFunction_of_lookup_none hl]; exact AList.lookup_insert _

/-- A call never changes the reference recorded for a name. -/
theorem lookupFunc_declareFunction (hr : mb.lookupFunc name = some r) :
    (mb.declareFunction sig).1.lookupFunc name = some r := by
  cases hl : mb.lookupFunc sig.name with
  | some _ => rw [declareFunction_of_lookup_some hl]; exact hr
  | none =>
      rw [declareFunction_of_lookup_none hl]
      have hne : name ≠ sig.name := by rintro rfl; rw [hl] at hr; cases hr
      exact (AList.lookup_insert_ne hne).trans hr

/-! ### A call alone -/

/-- The four map steps of one `declare_function` call by thread `t`. -/
def declareSteps (t : Nat) (sig : Signature) : List (Nat × DeclareAction) :=
  [(t, .get sig), (t, .insertFunc), (t, .insertName), (t, .insertSig)]

/-- **A call alone is `declareFunction`.** A thread outside `declare_function` that runs a call
with no other thread's step in between ends where `declareFunction` ends, and returns what it
returns: after the lookup when the name is recorded, after the four steps otherwise. -/
theorem runSchedule_declareSteps {sys : ModuleSystem} {t : Nat} (ht : sys.threads t = none)
    (sig : Signature) :
    sys.runSchedule ((declareSteps t sig).take
        (if (sys.builder.lookupFunc sig.name).isSome then 1 else 4)) =
      some ⟨(sys.builder.declareFunction sig).1, sys.threads,
        sys.returned ++ [(sig.name, (sys.builder.declareFunction sig).2)]⟩ := by
  cases hl : sys.builder.lookupFunc sig.name with
  | some r =>
      rw [declareFunction_of_lookup_some hl]
      unfold lookupFunc at hl
      simp [declareSteps, ModuleSystem.runSchedule, ModuleSystem.step, ht, hl]
  | none =>
      rw [declareFunction_of_lookup_none hl]
      unfold lookupFunc at hl
      simp [declareSteps, ModuleSystem.runSchedule, ModuleSystem.step, ht, hl,
        Function.update_eq_self_iff]

/-- Thread `0` declaring `f` alone on the initial system. -/
theorem runSchedule_declareSteps_init :
    ModuleSystem.init.threads 0 = none ∧
      ModuleSystem.init.runSchedule ((declareSteps 0 sigF).take
          (if (ModuleSystem.init.builder.lookupFunc sigF.name).isSome then 1 else 4)) =
        some ⟨(ModuleSystem.init.builder.declareFunction sigF).1, ModuleSystem.init.threads,
          ModuleSystem.init.returned ++
            [(sigF.name, (ModuleSystem.init.builder.declareFunction sigF).2)]⟩ :=
  ⟨rfl, runSchedule_declareSteps rfl sigF⟩

/-! ### The invariant of sequential use -/

/-- **Sequential declarations.** The store is dense below `2 ^ 32` functions; the name map
records exactly the stored references, each under one name, and the context holds, for each, a
signature of that name. -/
structure SeqInv (mb : ModuleBuilder) : Prop where
  dense : mb.funcs.KeysDense
  len_le : mb.funcs.len ≤ UInt32.size
  named_mem : ∀ name r, mb.lookupFunc name = some r → r ∈ mb.funcs.table
  mem_named : ∀ r ∈ mb.funcs.table, ∃ name, mb.lookupFunc name = some r
  name_unique : ∀ name name' r, mb.lookupFunc name = some r → mb.lookupFunc name' = some r →
    name = name'
  sig_named : ∀ name r, mb.lookupFunc name = some r →
    ∃ sig, mb.ctx.funcSig r = some sig ∧ sig.name = name

/-- A new builder has declared nothing. -/
theorem seqInv_new : new.SeqInv :=
  ⟨FuncStore.keysDense_new, by simp [new, FuncStore.len, FuncStore.new, AList.empty_entries],
    fun _ _ h => (nomatch h), fun _ h => absurd h (AList.not_mem_empty _),
    fun _ _ _ h => (nomatch h), fun _ _ h => (nomatch h)⟩

/-- **One call keeps the invariant.** On a miss the new reference is not stored yet, so it is
recorded under the one new name only. -/
theorem seqInv_declareFunction (hinv : mb.SeqInv) (hlen : mb.funcs.len < UInt32.size)
    (sig : Signature) : (mb.declareFunction sig).1.SeqInv := by
  cases hl : mb.lookupFunc sig.name with
  | some r => rw [declareFunction_of_lookup_some hl]; exact hinv
  | none =>
      rw [declareFunction_of_lookup_none hl]
      obtain ⟨hfresh, hlen', hdense⟩ :=
        FuncStore.keysDense_insert (Function.new sig) hinv.dense hlen
      have hlook := fun {name} {r} =>
        @AList.lookup_insert_eq_some _ _ _ mb.declaredFuncs sig.name name
          (mb.funcs.insert (Function.new sig)).2 r
      have hne : ∀ {name r}, mb.lookupFunc name = some r →
          r ≠ (mb.funcs.insert (Function.new sig)).2 :=
        fun h heq => hfresh (heq ▸ hinv.named_mem _ _ h)
      refine ⟨hdense, hlen' ▸ hlen, fun name r h => ?_, fun r hr => ?_, fun n n' r h h' => ?_,
        fun name r h => ?_⟩
      · rcases hlook.1 h with ⟨-, rfl⟩ | ⟨-, h⟩
        exacts [(AList.mem_insert _).2 (.inl rfl),
          (AList.mem_insert _).2 (.inr (hinv.named_mem _ _ h))]
      · rcases (AList.mem_insert _).1 hr with rfl | hr
        · exact ⟨sig.name, AList.lookup_insert _⟩
        · obtain ⟨name, hn⟩ := hinv.mem_named r hr
          have hname : name ≠ sig.name := by rintro rfl; rw [hl] at hn; cases hn
          exact ⟨name, hlook.2 (.inr ⟨hname, hn⟩)⟩
      · rcases hlook.1 h with ⟨rfl, rfl⟩ | ⟨-, h⟩ <;> rcases hlook.1 h' with ⟨rfl, hr⟩ | ⟨-, h'⟩
        · rfl
        · exact absurd rfl (hne h')
        · exact absurd hr (hne h)
        · exact hinv.name_unique n n' r h h'
      · rcases hlook.1 h with ⟨rfl, rfl⟩ | ⟨-, h⟩
        · exact ⟨sig, AList.lookup_insert _, rfl⟩
        · obtain ⟨s, hs, hsn⟩ := hinv.sig_named _ _ h
          exact ⟨s, (AList.lookup_insert_ne (hne h)).trans hs, hsn⟩

/-- The builders that calls of `declare_function`, one at a time and each below `2 ^ 32`
functions, reach from `mb`. -/
def DeclaredFrom (mb : ModuleBuilder) : ModuleBuilder → Prop :=
  Relation.ReflTransGen
    (fun mb mb' => mb.funcs.len < UInt32.size ∧ ∃ sig, (mb.declareFunction sig).1 = mb') mb

/-- Sequential calls keep the invariant. -/
theorem DeclaredFrom.seqInv (h : mb.DeclaredFrom mb') (hinv : mb.SeqInv) : mb'.SeqInv := by
  induction h with
  | refl => exact hinv
  | tail _ hstep ih =>
      obtain ⟨hlen, sig, rfl⟩ := hstep
      exact seqInv_declareFunction ih hlen sig

/-- Sequential calls never change the reference recorded for a name. -/
theorem DeclaredFrom.lookupFunc (h : mb.DeclaredFrom mb') (hr : mb.lookupFunc name = some r) :
    mb'.lookupFunc name = some r := by
  induction h with
  | refl => exact hr
  | tail _ hstep ih =>
      obtain ⟨-, sig, rfl⟩ := hstep
      exact lookupFunc_declareFunction ih

/-- **`declare_function` one call at a time.** In every builder that sequential calls reach from
a new one, below `2 ^ 32` functions, a call of `declare_function` returns a reference that is
recorded under the name and has a signature of that name; every later call with the name
returns the same reference and changes nothing; every later call with another name returns
another reference; and every stored function is recorded under exactly one name. -/
theorem declareFunction_sequential (h : new.DeclaredFrom mb) (hlen : mb.funcs.len < UInt32.size)
    (sig : Signature) :
    let r := mb.declareFunction sig
    r.1.lookupFunc sig.name = some r.2 ∧
      (∃ sig', r.1.ctx.funcSig r.2 = some sig' ∧ sig'.name = sig.name) ∧
      (∀ mb', r.1.DeclaredFrom mb' → ∀ sig', sig'.name = sig.name →
        mb'.declareFunction sig' = (mb', r.2)) ∧
      (∀ mb', r.1.DeclaredFrom mb' → mb'.funcs.len < UInt32.size → ∀ sig',
        sig'.name ≠ sig.name → (mb'.declareFunction sig').2 ≠ r.2) ∧
      ∀ funcRef ∈ r.1.funcs.table, ∃! name, r.1.lookupFunc name = some funcRef := by
  intro r
  have hinv : r.1.SeqInv := seqInv_declareFunction (h.seqInv seqInv_new) hlen sig
  have hlook : r.1.lookupFunc sig.name = some r.2 := lookupFunc_declareFunction_self
  refine ⟨hlook, hinv.sig_named _ _ hlook, fun mb' h' sig' hname => ?_,
    fun mb' h' hlen' sig' hname heq => ?_, fun funcRef hmem => ?_⟩
  · exact declareFunction_of_lookup_some (hname ▸ h'.lookupFunc hlook)
  · have hinv' := h'.seqInv hinv
    have hold := h'.lookupFunc hlook
    cases hl : mb'.lookupFunc sig'.name with
    | some r' =>
        rw [declareFunction_of_lookup_some hl] at heq
        exact hname (hinv'.name_unique _ _ _ (heq ▸ hl) hold)
    | none =>
        rw [declareFunction_of_lookup_none hl] at heq
        exact (FuncStore.keysDense_insert (Function.new sig') hinv'.dense hlen').1
          (heq ▸ hinv'.named_mem _ _ hold)
  · obtain ⟨name, hn⟩ := hinv.mem_named funcRef hmem
    exact ⟨name, hn, fun name' hn' => hinv.name_unique _ _ _ hn' hn⟩

/-- The contract on a new builder, for the signature `f`. -/
theorem declareFunction_sequential_new :
    let r := new.declareFunction sigF
    r.1.lookupFunc sigF.name = some r.2 ∧
      (∃ sig', r.1.ctx.funcSig r.2 = some sig' ∧ sig'.name = sigF.name) ∧
      (∀ mb', r.1.DeclaredFrom mb' → ∀ sig', sig'.name = sigF.name →
        mb'.declareFunction sig' = (mb', r.2)) ∧
      (∀ mb', r.1.DeclaredFrom mb' → mb'.funcs.len < UInt32.size → ∀ sig',
        sig'.name ≠ sigF.name → (mb'.declareFunction sig').2 ≠ r.2) ∧
      ∀ funcRef ∈ r.1.funcs.table, ∃! name, r.1.lookupFunc name = some funcRef :=
  declareFunction_sequential .refl (by decide) sigF

end ModuleBuilder

/-! ### Calls that do not overlap on a name -/

/-- The signature a thread inside `declare_function` declares. -/
def DeclarePc.sig : DeclarePc → Signature
  | .missed sig | .inserted sig _ | .named sig _ => sig

/-- The reference a thread has recorded under its name, once it has. -/
def DeclarePc.named? : DeclarePc → Option FuncRef
  | .named _ funcRef => some funcRef
  | _ => none

namespace ModuleSystem

/-- A step that starts no second call for a name while one is running: a lookup misses only when
no thread is inside a call with that name. -/
def ExclusiveStep (sys sys' : ModuleSystem) : Prop :=
  ∃ t a, (a = .insertFunc → sys.builder.funcs.len < UInt32.size) ∧
    (∀ sig, a = .get sig → sys.builder.lookupFunc sig.name = none →
      ∀ t' pc, sys.threads t' = some pc → pc.sig.name ≠ sig.name) ∧
    sys.step t a = some sys'

/-- The systems that interleavings in which no two calls with one name overlap reach from
`init`. -/
def ExclusiveReachable : ModuleSystem → Prop :=
  Relation.ReflTransGen ExclusiveStep init

/-- The invariant of such interleavings: every returned pair is in the name map; a thread inside
a call finds under its name nothing until it records its reference, and that reference after;
and no two threads are inside calls with one name. -/
structure ExInv (sys : ModuleSystem) : Prop where
  returned : ∀ name r, (name, r) ∈ sys.returned → sys.builder.lookupFunc name = some r
  pending : ∀ t pc, sys.threads t = some pc → sys.builder.lookupFunc pc.sig.name = pc.named?
  unique : ∀ t t' pc pc', sys.threads t = some pc → sys.threads t' = some pc' →
    pc.sig.name = pc'.sig.name → t = t'

variable {sys sys' : ModuleSystem} {t : Nat} {a : DeclareAction}

/-- No call has started. -/
theorem exInv_init : init.ExInv :=
  ⟨fun _ _ => nofun, fun _ _ h => (nomatch h), fun _ _ _ _ h => (nomatch h)⟩

/-- Threads stay apart by name after a step of thread `t` whose new position, if any, has a name
no other thread has. -/
theorem unique_update (hinv : sys.ExInv) {pc' : Option DeclarePc}
    (hnew : ∀ pc, pc' = some pc → ∀ t' pc₀, t' ≠ t → sys.threads t' = some pc₀ →
      pc₀.sig.name ≠ pc.sig.name) :
    ∀ t₁ t₂ pc₁ pc₂, Function.update sys.threads t pc' t₁ = some pc₁ →
      Function.update sys.threads t pc' t₂ = some pc₂ → pc₁.sig.name = pc₂.sig.name →
        t₁ = t₂ := by
  intro t₁ t₂ pc₁ pc₂ h₁ h₂ hn
  by_cases e₁ : t₁ = t <;> by_cases e₂ : t₂ = t
  · rw [e₁, e₂]
  · subst e₁
    rw [Function.update_same] at h₁
    rw [Function.update_noteq e₂] at h₂
    exact absurd hn.symm (hnew pc₁ h₁ t₂ pc₂ e₂ h₂)
  · subst e₂
    rw [Function.update_same] at h₂
    rw [Function.update_noteq e₁] at h₁
    exact absurd hn (hnew pc₂ h₂ t₁ pc₁ e₁ h₁)
  · rw [Function.update_noteq e₁] at h₁
    rw [Function.update_noteq e₂] at h₂
    exact hinv.unique t₁ t₂ pc₁ pc₂ h₁ h₂ hn

/-- A thread that moves on in its call keeps its name apart from the others'. -/
theorem ExInv.apart (hinv : sys.ExInv) {pc : DeclarePc} (ht : sys.threads t = some pc) :
    ∀ t' pc₀, t' ≠ t → sys.threads t' = some pc₀ → pc₀.sig.name ≠ pc.sig.name :=
  fun t' pc₀ hne h' hn => hne (hinv.unique t' t pc₀ pc h' ht hn)

/-- **One step keeps the invariant.** -/
theorem exInv_step (hinv : sys.ExInv) (hex : ∀ sig, a = .get sig →
      sys.builder.lookupFunc sig.name = none → ∀ t' pc, sys.threads t' = some pc →
        pc.sig.name ≠ sig.name)
    (h : sys.step t a = some sys') : sys'.ExInv := by
  rcases step_cases h with ⟨sig, r, -, -, hl, rfl⟩ | ⟨sig, rfl, -, hl, rfl⟩ | ⟨sig, -, hpc, rfl⟩ |
    ⟨sig, r, -, hpc, rfl⟩ | ⟨sig, r, -, hpc, rfl⟩
  · exact { hinv with returned := forall_returned_append hinv.returned hl }
  · exact ⟨hinv.returned,
      forall_update (fun t' pc _ h' => hinv.pending t' pc h') (fun pc h' => by cases h'; exact hl),
      unique_update hinv fun pc h' t' pc₀ _ h₀ => by cases h'; exact hex sig rfl hl t' pc₀ h₀⟩
  · exact ⟨hinv.returned,
      forall_update (fun t' pc _ h' => hinv.pending t' pc h')
        (fun pc h' => by cases h'; exact (hinv.pending t _ hpc :)),
      unique_update hinv fun pc h' => by cases h'; exact (hinv.apart hpc :)⟩
  · have hnone : sys.builder.lookupFunc sig.name = none := hinv.pending t _ hpc
    refine ⟨fun name r' hr => ?_, forall_update (fun t' pc hne h' => ?_) ?_,
      unique_update hinv fun pc h' => by cases h'; exact (hinv.apart hpc :)⟩
    · have hold := hinv.returned name r' hr
      have hne : name ≠ sig.name := by rintro rfl; rw [hnone] at hold; cases hold
      exact (AList.lookup_insert_ne hne).trans hold
    · exact (AList.lookup_insert_ne (hinv.apart hpc t' pc hne h')).trans (hinv.pending t' pc h')
    · intro pc h'
      cases h'
      exact AList.lookup_insert _
  · have hnamed : sys.builder.lookupFunc sig.name = some r := hinv.pending t _ hpc
    exact ⟨forall_returned_append hinv.returned hnamed,
      forall_update (fun t' pc _ h' => hinv.pending t' pc h') (fun _ h' => by cases h'),
      unique_update hinv fun _ h' => by cases h'⟩

/-- Every system that non-overlapping interleavings reach keeps the invariant, and is reachable. -/
theorem ExclusiveReachable.exInv (h : sys.ExclusiveReachable) : sys.ExInv ∧ sys.Reachable := by
  induction h with
  | refl => exact ⟨exInv_init, .refl⟩
  | tail _ hstep ih =>
      obtain ⟨t, a, hlen, hex, hs⟩ := hstep
      exact ⟨exInv_step ih.1 hex hs, ih.2.tail ⟨t, a, hlen, hs⟩⟩

end ModuleSystem

/-- **`declare_function` agrees by name when same-name calls do not overlap.** In every
interleaving in which a lookup misses only while no other thread is inside a call with that
name (below `2 ^ 32` functions), all calls with one name return one reference, calls with
different names return different references, and `lookup_func` finds, for each name, the
reference its calls returned. -/
theorem declareFunction_exclusive {sys : ModuleSystem} (h : sys.ExclusiveReachable) :
    (∀ name r r', (name, r) ∈ sys.returned → (name, r') ∈ sys.returned → r = r') ∧
      (∀ name name' r, (name, r) ∈ sys.returned → (name', r) ∈ sys.returned → name = name') ∧
      ∀ name r, (name, r) ∈ sys.returned → sys.builder.lookupFunc name = some r := by
  obtain ⟨hex, hreach⟩ := h.exInv
  have hinv := hreach.inv
  refine ⟨fun name r r' hr hr' => ?_, fun name name' r hr hr' => ?_, hex.returned⟩
  · exact Option.some.inj ((hex.returned name r hr).symm.trans (hex.returned name r' hr'))
  · obtain ⟨func, hf, rfl⟩ := hinv.returned name r hr
    obtain ⟨func', hf', rfl⟩ := hinv.returned name' r hr'
    rw [Option.some.inj (hf.symm.trans hf')]

/-- Thread `0` declares `f`; between its insert into the name map and its insert into the
signature table, thread `1` declares `f` as well, and its lookup finds thread `0`'s reference. -/
def nestedDeclare : List (Nat × DeclareAction) :=
  nameBeforeSig ++ [(0, .insertSig)]

/-- The system after the first `k` steps of `nestedDeclare`. -/
def nestedState (k : Nat) : ModuleSystem :=
  (ModuleSystem.init.runSchedule (nestedDeclare.take k)).getD ModuleSystem.init

/-- The calls of `nestedDeclare` overlap, but thread `1`'s lookup hits: both calls return
`FuncRef(0)`, the reference `lookup_func("f")` finds. -/
theorem declareFunction_exclusive_nested :
    ∃ sys, ModuleSystem.init.runSchedule nestedDeclare = some sys ∧
      sys.returned = [("f", ⟨0⟩), ("f", ⟨0⟩)] ∧
      ((∀ name r r', (name, r) ∈ sys.returned → (name, r') ∈ sys.returned → r = r') ∧
        (∀ name name' r, (name, r) ∈ sys.returned → (name', r) ∈ sys.returned → name = name') ∧
        ∀ name r, (name, r) ∈ sys.returned → sys.builder.lookupFunc name = some r) :=
  have s₁ : ModuleSystem.ExclusiveStep (nestedState 0) (nestedState 1) :=
    ⟨0, .get sigF, nofun, fun _ _ _ _ _ h => (nomatch h), rfl⟩
  have s₂ : ModuleSystem.ExclusiveStep (nestedState 1) (nestedState 2) :=
    ⟨0, .insertFunc, fun _ => by decide, fun _ h => (nomatch h), rfl⟩
  have s₃ : ModuleSystem.ExclusiveStep (nestedState 2) (nestedState 3) :=
    ⟨0, .insertName, nofun, fun _ h => (nomatch h), rfl⟩
  have s₄ : ModuleSystem.ExclusiveStep (nestedState 3) (nestedState 4) :=
    ⟨1, .get sigF, nofun, fun _ he hl => by cases he; exact absurd hl (by decide), rfl⟩
  have s₅ : ModuleSystem.ExclusiveStep (nestedState 4) (nestedState 5) :=
    ⟨0, .insertSig, nofun, fun _ h => (nomatch h), rfl⟩
  ⟨nestedState 5, rfl, rfl,
    declareFunction_exclusive (.tail (.tail (.tail (.tail (.single s₁) s₂) s₃) s₄) s₅)⟩

end Sonatina
