import AtomicStyle.Compile.Compiler

/-!
# Compilation with a cache

A unit is compiled in any monad that can give the group of a block.  A relation between two monads
that sequencing preserves (`Simulation`) relates the outputs of a unit as soon as it relates the
groups of blocks, by the structure of the compiler.

A cache that compilers have filled holds nothing but the groups of its own keys (`Faithful`): the
group under a digest is that of every block with this digest.  From such a cache, the group of a block
is what it is without a cache, and such a cache is left behind (`Agree`), if the digest has no
collisions.

Results:
1. `rel_compileWith`: related groups give related outputs.
2. `agree_groupBy`: the group of a block from a faithful cache.
3. `agree_compileBy`: the output of a unit from a faithful cache.
-/

namespace AtomicStyle

/-! ## Related computations -/

/-- A relation between the computations of two monads that returning and sequencing preserve. -/
structure Simulation (m n : Type → Type) [Monad m] [Monad n] where
  Rel {α : Type} : m α → n α → Prop
  pure {α : Type} (a : α) : Rel (Pure.pure a) (Pure.pure a)
  bind {α β : Type} {x : m α} {y : n α} {f : α → m β} {g : α → n β} :
    Rel x y → (∀ a, Rel (f a) (g a)) → Rel (x >>= f) (y >>= g)

namespace Simulation

variable {m n : Type → Type} [Monad m] [Monad n] {ε γ α : Type}

/-- The relation of computations that may fail. -/
def exceptT (sim : Simulation m n) (ε : Type) : Simulation (ExceptT ε m) (ExceptT ε n) where
  Rel x y := sim.Rel x.run y.run
  pure _ := sim.pure _
  bind hx hf := by
    rw [ExceptT.run_bind, ExceptT.run_bind]
    refine sim.bind hx fun r => ?_
    cases r with
    | ok a => exact hf a
    | error e => exact sim.pure _

/-- The relation of computations that gather something on the way. -/
def stateT (sim : Simulation m n) (γ : Type) : Simulation (StateT γ m) (StateT γ n) where
  Rel x y := ∀ gathered, sim.Rel (x.run gathered) (y.run gathered)
  pure _ _ := sim.pure _
  bind hx hf gathered := by
    rw [StateT.run_bind, StateT.run_bind]
    exact sim.bind (hx gathered) fun p => hf p.1 p.2

theorem ofExcept (sim : Simulation m n) (r : Except ε α) :
    (sim.exceptT ε).Rel (MonadExcept.ofExcept r) (MonadExcept.ofExcept r) := by
  cases r with
  | ok a => exact sim.pure _
  | error e => exact sim.pure _

theorem lift_exceptT [LawfulMonad m] [LawfulMonad n] (sim : Simulation m n) {x : m α} {y : n α}
    (h : sim.Rel x y) : (sim.exceptT ε).Rel (ExceptT.lift x) (ExceptT.lift y) := by
  show sim.Rel (Except.ok <$> x) (Except.ok <$> y)
  rw [map_eq_pure_bind, map_eq_pure_bind]
  exact sim.bind h fun a => sim.pure _

theorem lift_stateT (sim : Simulation m n) {x : m α} {y : n α} (h : sim.Rel x y) :
    (sim.stateT γ).Rel (StateT.lift x) (StateT.lift y) :=
  fun _ => sim.bind h fun _ => sim.pure _

theorem modify_stateT (sim : Simulation m n) (f : γ → γ) :
    (sim.stateT γ).Rel (modify f) (modify f) :=
  fun _ => sim.pure _

end Simulation

/-! ## Compilation -/

section Compilation

variable {m n : Type → Type} [Monad m] [Monad n] [LawfulMonad m] [LawfulMonad n]
  (sim : Simulation m n) {group : Block → m RuleGroup} {other : Block → n RuleGroup}

namespace ClassItems

theorem rel_ofBlock (h : ∀ block, sim.Rel (group block) (other block)) (block : Block) :
    (sim.exceptT CompileError).Rel (ofBlock group block) (ofBlock other block) := by
  unfold ofBlock
  split
  · exact (sim.exceptT _).pure _
  · exact (sim.exceptT _).bind (sim.lift_exceptT (h block)) fun g => (sim.exceptT _).pure _

/-- If the groups of blocks are related, so are the items of inputs. -/
theorem rel_ofInput (h : ∀ block, sim.Rel (group block) (other block)) (input : StyleInput) :
    (sim.exceptT CompileError).Rel (ofInput group input) (ofInput other input) := by
  -- The items of inputs in a row need the statement for every block that is being gathered.
  refine ofInput.induct
    (fun input => (sim.exceptT _).Rel (ofInput group input) (ofInput other input))
    (fun gathered inputs =>
      (sim.exceptT _).Rel (ofInputs group gathered inputs) (ofInputs other gathered inputs))
    ?object ?css ?list ?guarded ?branch ?passthrough ?nil ?consObject ?consCss ?cons input
  case object =>
    intro entries
    rw [ofInput, ofInput]
    exact (sim.exceptT _).bind (sim.ofExcept _) (rel_ofBlock sim h)
  case css =>
    intro text refs span
    rw [ofInput, ofInput]
    exact (sim.exceptT _).bind (sim.ofExcept _) (rel_ofBlock sim h)
  case list =>
    intro items ih
    rw [ofInput, ofInput]
    exact ih
  case guarded =>
    intro test body ih
    rw [ofInput, ofInput]
    exact (sim.exceptT _).bind ih fun _ => (sim.exceptT _).pure _
  case branch =>
    intro test yes no ihYes ihNo
    rw [ofInput, ofInput]
    refine (sim.exceptT _).bind ihYes fun _ => ?_
    exact (sim.exceptT _).bind ihNo fun _ => (sim.exceptT _).pure _
  case passthrough =>
    intro source
    rw [ofInput, ofInput]
    exact (sim.exceptT _).pure _
  case nil =>
    intro gathered
    rw [ofInputs, ofInputs]
    exact rel_ofBlock sim h gathered
  case consObject =>
    intro gathered entries rest ih
    rw [ofInputs, ofInputs]
    exact (sim.exceptT _).bind (sim.ofExcept _) ih
  case consCss =>
    intro gathered text refs span rest ih
    rw [ofInputs, ofInputs]
    exact (sim.exceptT _).bind (sim.ofExcept _) ih
  case cons =>
    intro gathered input rest hobject hcss ihInput ihRest
    rw [ofInputs.eq_4 _ _ _ _ hobject hcss, ofInputs.eq_4 _ _ _ _ hobject hcss]
    refine (sim.exceptT _).bind (rel_ofBlock sim h gathered) fun before => ?_
    refine (sim.exceptT _).bind ihInput fun items => ?_
    exact (sim.exceptT _).bind ihRest fun after => (sim.exceptT _).pure _

end ClassItems

namespace Compiler

theorem rel_siteItems (h : ∀ block, sim.Rel (group block) (other block)) (compiler : Compiler)
    (unit : SourceUnit) (sites : List Site) :
    ((sim.stateT (List CompileWarning)).exceptT CompileError).Rel
      (compiler.siteItems group unit sites) (compiler.siteItems other unit sites) := by
  induction sites with
  | nil =>
    rw [siteItems, siteItems]
    exact ((sim.stateT _).exceptT _).pure _
  | cons site sites ih =>
    rw [siteItems, siteItems]
    refine ((sim.stateT _).exceptT _).bind ((sim.stateT _).ofExcept _) fun input => ?_
    refine ((sim.stateT _).exceptT _).bind
      ((sim.stateT _).lift_exceptT (sim.modify_stateT _)) fun _ => ?_
    refine ((sim.stateT _).exceptT _).bind
      ((sim.stateT _).lift_exceptT (sim.lift_stateT (ClassItems.rel_ofInput sim h input)))
      fun lowered => ?_
    refine ((sim.stateT _).exceptT _).bind ((sim.stateT _).ofExcept _) fun items => ?_
    exact ((sim.stateT _).exceptT _).bind ih fun others => ((sim.stateT _).exceptT _).pure _

/-- If the groups of blocks are related, so are the outputs of units. -/
theorem rel_compileWith (h : ∀ block, sim.Rel (group block) (other block)) (compiler : Compiler)
    (unit : SourceUnit) :
    sim.Rel (compiler.compileWith group unit) (compiler.compileWith other unit) := by
  unfold compileWith
  refine sim.bind ?_ fun p => ?_
  · refine ((sim.stateT _).exceptT _).bind ((sim.stateT _).ofExcept _) (fun _ => ?_)
      compiler.optionWarnings
    exact ((sim.stateT _).exceptT _).bind (rel_siteItems sim h compiler unit unit.sites)
      fun items => ((sim.stateT _).exceptT _).pure _
  · obtain ⟨result, warnings⟩ := p
    cases result with
    | ok output => exact sim.pure _
    | error e => exact sim.pure _

end Compiler

end Compilation

/-! ## Agreement -/

/-- From every state with an invariant, a step with a state gives the value of the step without one,
and the invariant stays. -/
def Agree {σ α : Type} (inv : σ → Prop) (x : StateM σ α) (y : Id α) : Prop :=
  ∀ s, inv s → (x.run s).1 = y.run ∧ inv (x.run s).2

section Sequencing

variable {σ α β : Type} {inv : σ → Prop}

theorem agree_pure (a : α) : Agree inv (pure a) (pure a) :=
  fun _ hs => ⟨rfl, hs⟩

theorem agree_bind {x : StateM σ α} {y : Id α} {f : α → StateM σ β} {g : α → Id β}
    (hx : Agree inv x y) (hf : ∀ a, Agree inv (f a) (g a)) :
    Agree inv (x >>= f) (y >>= g) := by
  intro s hs
  obtain ⟨hvalue, hinv⟩ := hx s hs
  obtain ⟨hnext, hkept⟩ := hf (x.run s).1 (x.run s).2 hinv
  refine ⟨?_, hkept⟩
  rw [hvalue] at hnext
  rw [StateT.run_bind]
  show ((f (x.run s).1).run (x.run s).2).1 = (g y.run).run
  rw [hvalue]
  exact hnext

/-- Agreement as a relation between monads. -/
def agreement (inv : σ → Prop) : Simulation (StateM σ) Id where
  Rel := Agree inv
  pure := agree_pure
  bind := agree_bind

/-- If the groups of blocks agree, so do the items of inputs. -/
theorem ClassItems.agree_ofInput {group : Block → StateM σ RuleGroup} {atomize : Block → RuleGroup}
    (h : ∀ block, Agree inv (group block) (pure (atomize block))) (input : StyleInput) :
    Agree inv (ofInput group input).run (ofInput (m := Id) atomize input).run :=
  rel_ofInput (agreement inv) h input

end Sequencing

/-! ## The cache -/

section Cache

variable {δ : Type} [DecidableEq δ] {digest : Block → δ}

/-- Every group of the cache is the group of each block that has the digest in its key, under the salt
in its key. -/
def GroupCache.Faithful (digest : Block → δ) (cache : GroupCache δ) : Prop :=
  ∀ key group, cache.get? key = some group →
    ∀ block, digest block = key.digest → group = block.atomize key.salt

theorem GroupCache.faithful_empty : (empty : GroupCache δ).Faithful digest := by
  intro key group h
  rw [get?_empty] at h
  cases h

theorem GroupCache.faithful_insert (hdigest : Function.Injective digest) {cache : GroupCache δ}
    (h : cache.Faithful digest) {key : CacheKey δ} {block : Block}
    (hkey : digest block = key.digest) :
    (cache.insert key (block.atomize key.salt)).Faithful digest := by
  intro other group hget block' hother
  rw [get?_insert] at hget
  split at hget
  · next heq =>
    subst heq
    rw [hdigest (hother.trans hkey.symm)]
    exact (Option.some.inj hget).symm
  · exact h other group hget block' hother

/-- What a lookup that keeps new groups does to a cache. -/
theorem GroupCache.run_getOrInsert (key : CacheKey δ) (compute : Unit → RuleGroup)
    (cache : GroupCache δ) :
    (getOrInsert key compute).run cache = match cache.get? key with
      | some group => (group, cache)
      | none => (compute (), cache.insert key (compute ())) := by
  unfold getOrInsert
  rw [StateT.run_bind]
  show StateT.run (match cache.get? key with | some group => _ | none => _) cache = _
  cases cache.get? key with
  | some group => rfl
  | none => rfl

theorem GroupCache.agree_getOrInsert (hdigest : Function.Injective digest) {key : CacheKey δ}
    {block : Block} (hkey : digest block = key.digest) :
    Agree (Faithful digest) (getOrInsert key fun _ => block.atomize key.salt)
      (pure (block.atomize key.salt)) := by
  intro cache hcache
  rw [run_getOrInsert]
  cases hget : cache.get? key with
  | some group => exact ⟨hcache key group hget block hkey, hcache⟩
  | none => exact ⟨rfl, faithful_insert hdigest hcache hkey⟩

namespace Compiler

theorem agree_groupBy (hdigest : Function.Injective digest) (compiler : Compiler) (block : Block) :
    Agree (GroupCache.Faithful digest) (compiler.groupBy digest block)
      (pure (compiler.atomize block)) := by
  unfold groupBy
  split
  · exact @GroupCache.agree_getOrInsert _ _ _ hdigest
      (CacheKey.of compiler.options.cacheSpace compiler.options.classSalt (digest block)) block rfl
  · exact agree_pure _

/-- From a faithful cache, a unit compiles to what it compiles to without a cache. -/
theorem agree_compileBy (hdigest : Function.Injective digest) (compiler : Compiler)
    (unit : SourceUnit) : Agree (GroupCache.Faithful digest) (compiler.compileBy digest unit)
      (compiler.compileUncached unit) :=
  rel_compileWith (agreement (GroupCache.Faithful digest)) (compiler.agree_groupBy hdigest) compiler
    unit

theorem agree_group (compiler : Compiler) (block : Block) :
    Agree (GroupCache.Faithful id) (compiler.group block) (pure (compiler.atomize block)) :=
  compiler.agree_groupBy Function.injective_id block

theorem agree_compile (compiler : Compiler) (unit : SourceUnit) :
    Agree (GroupCache.Faithful id) (compiler.compile unit) (compiler.compileUncached unit) :=
  compiler.agree_compileBy Function.injective_id unit

end Compiler

end Cache

end AtomicStyle
