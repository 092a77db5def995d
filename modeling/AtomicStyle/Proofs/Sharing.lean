import AtomicStyle.Proofs.Caching
import Mathlib.Logic.Function.Basic
import Mathlib.Logic.Function.Iterate

/-!
# Compilers that share a cache

Any number of compilations, each with settings of its own, share one cache.  A compilation touches
the cache only to get the group of a block, and it does so in separate steps: it looks the key up,
computes the group if nothing was found, and writes it.  Between any two steps of one compilation
come steps of others, and the cache may be cleared at any time.

A compilation is a tree of requests (`Requests`): answering them in a monad is compiling in that
monad (`compileWith_eq`).  What a step keeps is that the cache is faithful and that every task is on
the path on which each request is answered with the group of its block (`Task.Sound`).  A write keeps
the cache faithful because the digest has no collisions; nothing else is asked of it.

Results:
1. `Task.Sound.advance`: one step of a task on a faithful cache.
2. `Sharing.Sound.run`: every run of steps.
3. `Sharing.Sound.left_run`: a task that takes steps gets done.
4. `Sharing.run_alone`: a task that no other interrupts is the compilation of its unit.
5. `Sharing.run_transparent`: no run shows that there is a cache.
-/

namespace AtomicStyle

/-! ## Requests -/

/-- A computation that asks for the groups of blocks, one after another. -/
inductive Requests (α : Type) where
  | done (value : α)
  | ask (block : Block) (next : RuleGroup → Requests α)

namespace Requests

variable {α β : Type}

def bind : Requests α → (α → Requests β) → Requests β
  | done a, f => f a
  | ask block next, f => ask block fun group => (next group).bind f

instance : Monad Requests where
  pure := done
  bind := bind

instance : LawfulMonad Requests := LawfulMonad.mk' Requests
  (by
    intro α r
    show r.bind (fun a => done a) = r
    induction r with
    | done a => rfl
    | ask block next ih => exact congrArg (ask block) (funext ih))
  (fun _ _ => rfl)
  (by
    intro α β γ r f g
    show (r.bind f).bind g = r.bind fun a => (f a).bind g
    induction r with
    | done a => rfl
    | ask block next ih => exact congrArg (ask block) (funext ih))

section Answer

variable {m : Type → Type} [Monad m]

/-- Answers every request. -/
def answer (group : Block → m RuleGroup) : Requests α → m α
  | done a => pure a
  | ask block next => group block >>= fun g => (next g).answer group

theorem answer_bind [LawfulMonad m] (group : Block → m RuleGroup) (r : Requests α)
    (f : α → Requests β) :
    (r >>= f).answer group = r.answer group >>= fun a => (f a).answer group := by
  show (r.bind f).answer group = _
  induction r with
  | done a => simp only [bind, answer, pure_bind]
  | ask block next ih => simp only [bind, answer, bind_assoc, ih]

/-- Answering as a relation between monads. -/
def answering [LawfulMonad m] (group : Block → m RuleGroup) : Simulation m Requests where
  Rel x r := x = r.answer group
  pure _ := rfl
  bind hx hf := by
    rw [hx, answer_bind]
    exact congrArg _ (funext hf)

end Answer

/-- The value of a computation whose requests are answered with the given groups. -/
def value (group : Block → RuleGroup) : Requests α → α
  | done a => a
  | ask block next => (next (group block)).value group

/-- The blocks that are asked for on the way to that value. -/
def blocks (group : Block → RuleGroup) : Requests α → List Block
  | done _ => []
  | ask block next => block :: (next (group block)).blocks group

theorem run_answer (group : Block → RuleGroup) (r : Requests α) :
    Id.run (r.answer (m := Id) group) = r.value group := by
  induction r with
  | done a => rfl
  | ask block next ih => exact ih (group block)

end Requests

namespace Compiler

/-- The compilation of a unit as a tree of requests. -/
def requests (compiler : Compiler) (unit : SourceUnit) : Requests CompileOutput :=
  compiler.compileWith (fun block => (.ask block .done : Requests RuleGroup)) unit

/-- Compiling in a monad is answering the requests there. -/
theorem compileWith_eq {m : Type → Type} [Monad m] [LawfulMonad m] (compiler : Compiler)
    (group : Block → m RuleGroup) (unit : SourceUnit) :
    compiler.compileWith group unit = (compiler.requests unit).answer group := by
  refine rel_compileWith (Requests.answering group) (fun block => ?_) compiler unit
  show group block = group block >>= pure
  rw [bind_pure]

theorem compileUncached_eq (compiler : Compiler) (unit : SourceUnit) :
    compiler.compileUncached unit = (compiler.requests unit).value compiler.atomize := by
  unfold compileUncached
  rw [compileWith_eq, Requests.run_answer]

/-- The same compiler with caching disabled. -/
def withoutCache (compiler : Compiler) : Compiler :=
  { compiler with options := { compiler.options with cache := false } }

theorem compileWith_withoutCache {m : Type → Type} [Monad m] (compiler : Compiler)
    (group : Block → m RuleGroup) (unit : SourceUnit) :
    compiler.withoutCache.compileWith group unit = compiler.compileWith group unit := by
  have hitems : ∀ sites, compiler.withoutCache.siteItems group unit sites =
      compiler.siteItems group unit sites := by
    intro sites
    induction sites with
    | nil => rfl
    | cons site sites ih =>
      rw [siteItems, siteItems, ih]
      rfl
  unfold compileWith
  rw [hitems]
  rfl

/-- With caching disabled, a unit compiles without a cache, and the cache stays as it is. -/
theorem compileBy_withoutCache {δ : Type} [DecidableEq δ] (compiler : Compiler)
    (digest : Block → δ) (unit : SourceUnit) (cache : GroupCache δ) :
    (compiler.withoutCache.compileBy digest unit).run cache =
      (compiler.compileUncached unit, cache) := by
  have hgroup : ∀ block, Agree (· = cache) (compiler.withoutCache.groupBy digest block)
      (pure (compiler.atomize block)) := fun block => agree_pure _
  unfold compileBy
  rw [compileWith_withoutCache]
  obtain ⟨hvalue, hkept⟩ := rel_compileWith (agreement (· = cache)) hgroup compiler unit cache rfl
  exact Prod.ext hvalue hkept

end Compiler

/-! ## Tasks -/

/-- A unit and who compiles it. -/
structure Job where
  compiler : Compiler
  unit : SourceUnit

namespace Job

/-- The blocks whose groups a compilation asks for. -/
def blocks (job : Job) : List Block :=
  (job.compiler.requests job.unit).blocks job.compiler.atomize

/-- Those blocks, each with its group under the salt of the compiler. -/
def calls (job : Job) : List (Block × RuleGroup) :=
  job.blocks.map fun block => (block, block.atomize (job.compiler.options.classSalt.getD ""))

end Job

/-- Where a compilation stands between two steps. -/
inductive Phase where
  /-- No call is under way. -/
  | running (rest : Requests CompileOutput)
  /-- The group of a block was not in the cache. -/
  | missed (block : Block) (next : RuleGroup → Requests CompileOutput)
  /-- The group of a block was computed and has not been written. -/
  | computed (block : Block) (group : RuleGroup) (next : RuleGroup → Requests CompileOutput)

namespace Phase

/-- What is left of a compilation, the call that is under way included. -/
def rest : Phase → Requests CompileOutput
  | running rest => rest
  | missed block next | computed block _ next => .ask block next

def output? : Phase → Option CompileOutput
  | running (.done output) => some output
  | _ => none

/-- How many steps are left at most. -/
def left (group : Block → RuleGroup) : Phase → Nat
  | running rest => 3 * (rest.blocks group).length
  | missed block next => 3 * ((next (group block)).blocks group).length + 2
  | computed block _ next => 3 * ((next (group block)).blocks group).length + 1

end Phase

/-- A compilation and the groups that its calls have obtained. -/
structure Task where
  phase : Phase
  obtained : List (Block × RuleGroup) := []

namespace Task

variable {δ : Type} [DecidableEq δ] {digest : Block → δ}

def start (job : Job) : Task :=
  ⟨.running (job.compiler.requests job.unit), []⟩

/-- Returns a group from a call. -/
def resume (task : Task) (block : Block) (group : RuleGroup)
    (next : RuleGroup → Requests CompileOutput) : Task :=
  ⟨.running (next group), task.obtained ++ [(block, group)]⟩

/-- One step of a task: a lookup, a computation or a write.  A task that is done stays. -/
def advance (digest : Block → δ) (compiler : Compiler) :
    Task × GroupCache δ → Task × GroupCache δ
  | (task, cache) =>
    let key block :=
      CacheKey.of compiler.options.cacheSpace compiler.options.classSalt (digest block)
    match task.phase with
    | .running (.done _) => (task, cache)
    | .running (.ask block next) =>
      if compiler.options.cache then
        match cache.get? (key block) with
        | some group => (task.resume block group next, cache)
        | none => ({ task with phase := .missed block next }, cache)
      else (task.resume block (compiler.atomize block) next, cache)
    | .missed block next =>
      ({ task with phase := .computed block (compiler.atomize block) next }, cache)
    | .computed block group next => (task.resume block group next, cache.insert (key block) group)

/-- The task is on the path on which every call obtains the group of its block. -/
structure Sound (job : Job) (task : Task) : Prop where
  obtained : task.obtained ++ (task.phase.rest.blocks job.compiler.atomize).map
    (fun block => (block, job.compiler.atomize block)) = job.calls
  value : task.phase.rest.value job.compiler.atomize = job.compiler.compileUncached job.unit
  computed : ∀ block group next, task.phase = .computed block group next →
    group = job.compiler.atomize block

variable {job : Job} {task : Task} {cache : GroupCache δ}

theorem sound_start (job : Job) : (start job).Sound job where
  obtained := rfl
  value := (job.compiler.compileUncached_eq job.unit).symm
  computed := by
    intro block group next h
    cases h

/-- A task stays sound in the phases of a call, as long as the group it computes is the right one. -/
theorem Sound.withPhase (h : task.Sound job) {phase : Phase} (hrest : phase.rest = task.phase.rest)
    (hcomputed : ∀ block group next, phase = .computed block group next →
      group = job.compiler.atomize block) :
    Sound job { task with phase } where
  obtained := by
    show task.obtained ++ (phase.rest.blocks _).map _ = _
    rw [hrest]
    exact h.obtained
  value := by
    show phase.rest.value _ = _
    rw [hrest]
    exact h.value
  computed := hcomputed

/-- A task stays sound when its call returns the group of the block. -/
theorem Sound.resume (h : task.Sound job) {block : Block}
    {next : RuleGroup → Requests CompileOutput} (hrest : task.phase.rest = .ask block next) :
    (task.resume block (job.compiler.atomize block) next).Sound job where
  obtained := by
    have hobtained := h.obtained
    rw [hrest, Requests.blocks, List.map_cons, List.append_cons] at hobtained
    exact hobtained
  value := by
    have hvalue := h.value
    rw [hrest, Requests.value] at hvalue
    exact hvalue
  computed := by
    intro block group next h
    cases h

/-- One step of a sound task on a faithful cache. -/
theorem Sound.advance (hdigest : Function.Injective digest) (h : task.Sound job)
    (hcache : cache.Faithful digest) :
    (Task.advance digest job.compiler (task, cache)).1.Sound job ∧
      (Task.advance digest job.compiler (task, cache)).2.Faithful digest ∧
      (Task.advance digest job.compiler (task, cache)).1.phase.left job.compiler.atomize ≤
        task.phase.left job.compiler.atomize - 1 := by
  obtain ⟨phase, obtained⟩ := task
  cases phase with
  | running rest =>
    cases rest with
    | done output => exact ⟨h, hcache, Nat.zero_le _⟩
    | ask block next =>
      unfold Task.advance
      dsimp only
      split
      · split
        · next group hget =>
          have hgroup : group = job.compiler.atomize block := hcache _ group hget block rfl
          subst hgroup
          exact ⟨h.resume rfl, hcache, by simp [Phase.left, Task.resume, Requests.blocks]; omega⟩
        · refine ⟨h.withPhase rfl ?_, hcache, by simp [Phase.left, Requests.blocks]; omega⟩
          intro block group next hphase
          cases hphase
      · exact ⟨h.resume rfl, hcache, by simp [Phase.left, Task.resume, Requests.blocks]; omega⟩
  | missed block next =>
    refine ⟨h.withPhase rfl ?_, hcache, by simp [Phase.left, Task.advance]⟩
    intro block group next hphase
    cases hphase
    rfl
  | computed block group next =>
    have hgroup : group = job.compiler.atomize block := h.computed block group next rfl
    subst hgroup
    exact ⟨h.resume rfl, GroupCache.faithful_insert hdigest hcache rfl,
      by simp [Phase.left, Task.advance, Task.resume]⟩

theorem Sound.eq_of_output? (h : task.Sound job) {output : CompileOutput}
    (houtput : task.phase.output? = some output) :
    task.obtained = job.calls ∧ output = job.compiler.compileUncached job.unit := by
  obtain ⟨phase, obtained⟩ := task
  cases phase with
  | running rest =>
    cases rest with
    | done value =>
      cases houtput
      exact ⟨(List.append_nil _).symm.trans h.obtained, h.value⟩
    | ask block next => cases houtput
  | missed block next => cases houtput
  | computed block group next => cases houtput

/-- Without other steps in between, a call does what getting the group from the cache does. -/
theorem exists_advance_group (digest : Block → δ) (compiler : Compiler) (block : Block)
    (next : RuleGroup → Requests CompileOutput) (obtained : List (Block × RuleGroup))
    (cache : GroupCache δ) :
    ∃ n log, (advance digest compiler)^[n] (⟨.running (.ask block next), obtained⟩, cache) =
      (⟨.running (next ((compiler.groupBy digest block).run cache).1), log⟩,
        ((compiler.groupBy digest block).run cache).2) := by
  unfold Compiler.groupBy
  by_cases hoption : compiler.options.cache = true
  · rw [if_pos hoption]
    dsimp only
    rw [GroupCache.run_getOrInsert]
    cases hget : cache.get?
        (CacheKey.of compiler.options.cacheSpace compiler.options.classSalt (digest block)) with
    | some group => exact ⟨1, obtained ++ [(block, group)], by simp [advance, hoption, hget, resume]⟩
    | none =>
      exact ⟨3, obtained ++ [(block, compiler.atomize block)],
        by simp [advance, hoption, hget, resume]⟩
  · rw [if_neg hoption]
    show ∃ n log, _ = (Task.mk (.running (next (compiler.atomize block))) log, cache)
    exact ⟨1, obtained ++ [(block, compiler.atomize block)], by simp [advance, hoption, resume]⟩

/-- Without other steps in between, a task does what answering its requests from the cache does. -/
theorem exists_advance_answer (digest : Block → δ) (compiler : Compiler)
    (rest : Requests CompileOutput) (obtained : List (Block × RuleGroup)) (cache : GroupCache δ) :
    ∃ n log, (advance digest compiler)^[n] (⟨.running rest, obtained⟩, cache) =
      (⟨.running (.done ((rest.answer (compiler.groupBy digest)).run cache).1), log⟩,
        ((rest.answer (compiler.groupBy digest)).run cache).2) := by
  induction rest generalizing obtained cache with
  | done output => exact ⟨0, obtained, rfl⟩
  | ask block next ih =>
    obtain ⟨n, log, hcall⟩ := exists_advance_group digest compiler block next obtained cache
    obtain ⟨k, log', hrest⟩ := ih _ log ((compiler.groupBy digest block).run cache).2
    refine ⟨k + n, log', ?_⟩
    rw [Function.iterate_add_apply, hcall, hrest, Requests.answer, StateT.run_bind]
    rfl

end Task

theorem Phase.isSome_output?_of_left {phase : Phase} {group : Block → RuleGroup}
    (h : phase.left group = 0) : phase.output?.isSome := by
  cases phase with
  | running rest =>
    cases rest with
    | done value => rfl
    | ask block next => simp [left, Requests.blocks] at h
  | missed block next => simp [left] at h
  | computed block group next => simp [left] at h

/-! ## Runs -/

/-- A step of one of the tasks, or the clearing of the cache. -/
inductive Move (ι : Type) where
  | advance (i : ι)
  | clear
deriving DecidableEq

/-- The cache and the tasks that share it. -/
structure Sharing (δ ι : Type) where
  cache : GroupCache δ
  tasks : ι → Task

namespace Sharing

variable {δ ι : Type} [DecidableEq δ] [DecidableEq ι] (digest : Block → δ) (jobs : ι → Job)

def start (cache : GroupCache δ) : Sharing δ ι :=
  ⟨cache, fun i => .start (jobs i)⟩

def step (state : Sharing δ ι) : Move ι → Sharing δ ι
  | .advance i =>
    let (task, cache) := Task.advance digest (jobs i).compiler (state.tasks i, state.cache)
    ⟨cache, Function.update state.tasks i task⟩
  | .clear => { state with cache := .empty }

/-- Any interleaving of the steps. -/
def run (state : Sharing δ ι) (moves : List (Move ι)) : Sharing δ ι :=
  moves.foldl (step digest jobs) state

/-- The cache is faithful and every task is sound. -/
structure Sound (state : Sharing δ ι) : Prop where
  cache : state.cache.Faithful digest
  tasks : ∀ i, (state.tasks i).Sound (jobs i)

variable {digest} {jobs} {state : Sharing δ ι}

omit [DecidableEq ι] in
theorem sound_start {cache : GroupCache δ} (h : cache.Faithful digest) :
    (start jobs cache).Sound digest jobs :=
  ⟨h, fun i => Task.sound_start (jobs i)⟩

theorem Sound.step (hdigest : Function.Injective digest) (h : state.Sound digest jobs)
    (move : Move ι) : (state.step digest jobs move).Sound digest jobs := by
  cases move with
  | advance i =>
    obtain ⟨htask, hcache, -⟩ := (h.tasks i).advance hdigest h.cache
    refine ⟨hcache, fun j => ?_⟩
    show (Function.update state.tasks i _ j).Sound (jobs j)
    by_cases hj : j = i
    · subst hj
      rw [Function.update_self]
      exact htask
    · rw [Function.update_of_ne hj]
      exact h.tasks j
  | clear => exact ⟨GroupCache.faithful_empty, h.tasks⟩

theorem Sound.run (hdigest : Function.Injective digest) (h : state.Sound digest jobs)
    (moves : List (Move ι)) : (state.run digest jobs moves).Sound digest jobs := by
  induction moves generalizing state with
  | nil => exact h
  | cons move moves ih => exact ih (h.step hdigest move)

/-- A step of a task leaves it less to do, and no other move gives it more. -/
theorem Sound.left_step (hdigest : Function.Injective digest) (h : state.Sound digest jobs) (i : ι)
    (move : Move ι) :
    ((state.step digest jobs move).tasks i).phase.left (jobs i).compiler.atomize ≤
      (state.tasks i).phase.left (jobs i).compiler.atomize - [move].count (.advance i) := by
  cases move with
  | advance j =>
    show (Function.update state.tasks j _ i).phase.left _ ≤ _
    by_cases hj : i = j
    · subst hj
      rw [Function.update_self, List.count_singleton_self]
      exact ((h.tasks i).advance hdigest h.cache).2.2
    · rw [Function.update_of_ne hj]
      simp [Ne.symm hj]
  | clear => exact Nat.le_refl _

theorem Sound.left_run (hdigest : Function.Injective digest) (h : state.Sound digest jobs) (i : ι)
    (moves : List (Move ι)) :
    ((state.run digest jobs moves).tasks i).phase.left (jobs i).compiler.atomize ≤
      (state.tasks i).phase.left (jobs i).compiler.atomize - moves.count (.advance i) := by
  induction moves generalizing state with
  | nil => exact Nat.le_refl _
  | cons move moves ih =>
    have hstep := h.left_step hdigest i move
    have hrest := ih (h.step hdigest move)
    rw [List.count_cons, ← List.count_singleton]
    show ((Sharing.run digest jobs (state.step digest jobs move) moves).tasks i).phase.left _ ≤ _
    omega

theorem run_replicate (state : Sharing δ ι) (i : ι) (n : Nat) :
    (((state.run digest jobs (.replicate n (.advance i))).tasks i),
      (state.run digest jobs (.replicate n (.advance i))).cache) =
      (Task.advance digest (jobs i).compiler)^[n] (state.tasks i, state.cache) := by
  induction n generalizing state with
  | zero => rfl
  | succ n ih =>
    rw [Function.iterate_succ_apply]
    refine (ih (state.step digest jobs (.advance i))).trans ?_
    show (Task.advance _ _)^[n] (Function.update state.tasks i _ i, _) = _
    rw [Function.update_self]
    rfl

/-- A task that no other interrupts is the compilation of its unit with the cache. -/
theorem run_alone (digest : Block → δ) (jobs : ι → Job) (cache : GroupCache δ) (i : ι) :
    ∃ n, let state := (start jobs cache).run digest jobs (.replicate n (.advance i))
      let result := ((jobs i).compiler.compileBy digest (jobs i).unit).run cache
      (state.tasks i).phase.output? = some result.1 ∧ state.cache = result.2 := by
  obtain ⟨n, log, h⟩ := Task.exists_advance_answer digest (jobs i).compiler
    ((jobs i).compiler.requests (jobs i).unit) [] cache
  have hrun := (run_replicate (start jobs cache) i n).trans h
  refine ⟨n, ?_⟩
  rw [Compiler.compileBy, Compiler.compileWith_eq]
  exact ⟨congrArg (·.1.phase.output?) hrun, congrArg (·.2) hrun⟩

/-- **The cache is transparent.**  Let any number of compilations share a cache that knows blocks by
a digest without collisions, and let their lookups, computations and writes and the clearing of the
cache come in any order.  The calls of a compilation obtain the groups of their blocks under its own
salt.  When it is done, every call has been made and the output is the one with caching disabled.  It
is done after at most three steps a call.  A compilation that no other interrupts is the one that the
compiler runs. -/
theorem run_transparent (digest : Block → δ) (hdigest : Function.Injective digest) (jobs : ι → Job)
    (moves : List (Move ι)) (i : ι) :
    let task := ((start jobs .empty).run digest jobs moves).tasks i
    let job := jobs i
    task.obtained <+: job.calls ∧
      (∀ output, task.phase.output? = some output → task.obtained = job.calls ∧
        ∀ cache, output = ((job.compiler.withoutCache.compileBy digest job.unit).run cache).1) ∧
      (3 * job.calls.length ≤ moves.count (.advance i) → task.phase.output?.isSome) ∧
      ∀ cache, ∃ n, let state := (start jobs cache).run digest jobs (.replicate n (.advance i))
        let result := (job.compiler.compileBy digest job.unit).run cache
        (state.tasks i).phase.output? = some result.1 ∧ state.cache = result.2 := by
  have hstart : (start jobs .empty).Sound digest jobs := sound_start GroupCache.faithful_empty
  have htask := (hstart.run hdigest moves).tasks i
  refine ⟨⟨_, htask.obtained⟩, fun output houtput => ?_, fun hcount => ?_, fun cache => ?_⟩
  · obtain ⟨hobtained, hvalue⟩ := htask.eq_of_output? houtput
    refine ⟨hobtained, fun cache => ?_⟩
    rw [Compiler.compileBy_withoutCache]
    exact hvalue
  · have hleft := hstart.left_run hdigest i moves
    have hbound : ((start jobs (.empty : GroupCache δ)).tasks i).phase.left
        (jobs i).compiler.atomize = 3 * (jobs i).calls.length := by
      rw [Job.calls, List.length_map]
      rfl
    refine Phase.isSome_output?_of_left (Nat.eq_zero_of_le_zero (Nat.le_trans hleft ?_))
    omega
  · exact run_alone digest jobs cache i

/-- The compilation of a unit that styles the color of one text. -/
def colorJob (salt : Option String) (color : String) : Job where
  compiler := ⟨{ classSalt := salt }, ⟨Resolver.none, Helpers.none⟩⟩
  unit :=
    { path := "a.js"
      sites := [⟨Span.none, .object Span.none [.named "color" (.str Span.none color)]⟩] }

/-- A red text, compiled twice without a salt and once with one. -/
def redJobs (i : Fin 3) : Job :=
  colorJob (if i = 2 then some "x" else none) "red"

/-- Two compilations miss the same group, the cache is cleared between their writes, and a third one
with another salt comes between. -/
theorem run_transparent_race :
    let moves : List (Move (Fin 3)) := [.advance 0, .advance 1, .advance 2, .advance 0, .advance 1,
      .advance 0, .clear, .advance 2, .advance 1, .advance 2]
    let state := (start redJobs .empty).run some redJobs moves
    state.cache.size = 2 ∧ (redJobs 0).calls ≠ (redJobs 2).calls ∧
      (∀ i, 3 * (redJobs i).calls.length ≤ moves.count (.advance i)) ∧
      ∀ i, ∃ output, (state.tasks i).phase.output? = some output ∧
        (state.tasks i).obtained = (redJobs i).calls ∧
        output =
          (((redJobs i).compiler.withoutCache.compileBy some (redJobs i).unit).run .empty).1 := by
  intro moves state
  have hcount : ∀ i, 3 * (redJobs i).calls.length ≤ moves.count (.advance i) := by
    decide +kernel
  refine ⟨by decide +kernel, by decide +kernel, hcount, fun i => ?_⟩
  have hsome : Function.Injective (@some Block) := fun _ _ => Option.some.inj
  obtain ⟨-, hdone, hprogress, -⟩ := run_transparent some hsome redJobs moves i
  obtain ⟨output, houtput⟩ := Option.isSome_iff_exists.mp (hprogress (hcount i))
  obtain ⟨hobtained, hvalue⟩ := hdone output houtput
  exact ⟨output, houtput, hobtained, hvalue .empty⟩

-- Under a digest that does not tell blocks apart, the second compilation gets the group of the first.
example :
    let jobs : Fin 2 → Job := fun i => colorJob none (if i = 0 then "red" else "blue")
    let state := (start jobs .empty).run (fun _ => ()) jobs
      [.advance 0, .advance 0, .advance 0, .advance 1]
    (state.tasks 1).obtained.map Prod.snd = (jobs 0).calls.map Prod.snd ∧
      (jobs 0).calls.map Prod.snd ≠ (jobs 1).calls.map Prod.snd := by
  decide +kernel

end Sharing

end AtomicStyle
