import AtomicStyle.Module.Graph
import AtomicStyle.Proofs.Words

/-!
# Looking up modules

A graph stores its units by normalized path, but the candidates of a search are made from the path
as it was written.  A path that ends with a name gives the same candidates as its normal form.  A
path that ends with a step up has no file name, so no candidate is made for it, although its normal
form may end with a name.

Results:
1. `ModulePath.normalize_child`, `normalize_withFileName`: where the normal form has the same end.
2. `ModulePath.wellFormed_ofString`, `ModuleGraph.wellFormed_target`: a step `.` stands only at the
   begin of a path that was read.
3. `ModulePath.ofString_spelled`: a list of names is the normal form of a text.
4. `ModuleGraph.map_normalize_candidates`: the candidates of a path are those of its normal form.
5. `ModuleGraph.lookup?_normalize_iff`: when a search depends on the normal form only.
-/

namespace AtomicStyle

open AtomicStyle.Text

namespace ModulePath

/-! ## Normal forms -/

theorem foldl_walk_names (names reached : List String) :
    (names.map Step.name).foldl walk reached = names.reverse ++ reached := by
  induction names generalizing reached with
  | nil => rfl
  | cons name names ih => rw [List.map_cons, List.foldl_cons, ih, walk, List.reverse_cons,
      List.append_assoc, List.singleton_append]

theorem normalize_names (rooted : Bool) (names : List String) :
    normalize ⟨rooted, names.map .name⟩ = ⟨rooted, names.map .name⟩ := by
  simp only [normalize, foldl_walk_names, List.append_nil, List.reverse_reverse]

theorem normalize_normalize (path : ModulePath) : path.normalize.normalize = path.normalize :=
  normalize_names _ _

/-- A name at the end stays where it is. -/
theorem normalize_concat (rooted : Bool) (steps : List Step) (name : String) :
    normalize ⟨rooted, steps ++ [.name name]⟩ = (normalize ⟨rooted, steps⟩).child name := by
  simp only [normalize, child, List.foldl_append, List.foldl_cons, List.foldl_nil, walk,
    List.reverse_cons, List.map_append, List.map_cons, List.map_nil]

theorem normalize_child (path : ModulePath) (name : String) :
    (path.child name).normalize = path.normalize.child name :=
  normalize_concat path.rooted path.steps name

theorem exists_of_fileName? {path : ModulePath} {name : String} (h : path.fileName? = some name) :
    ∃ steps, path.steps = steps ++ [.name name] := by
  unfold fileName? at h
  split at h
  · next text hlast =>
    obtain rfl := Option.some.inj h
    exact List.getLast?_eq_some_iff.mp hlast
  · cases h

theorem fileName?_child (path : ModulePath) (name : String) :
    (path.child name).fileName? = some name := by
  simp [fileName?, child]

/-- A path that ends with a name gives its normal form the same end. -/
theorem fileName?_normalize {path : ModulePath} {name : String} (h : path.fileName? = some name) :
    path.normalize.fileName? = some name := by
  obtain ⟨steps, hsteps⟩ := exists_of_fileName? h
  obtain ⟨rooted, _⟩ := path
  subst hsteps
  rw [normalize_concat, fileName?_child]

theorem normalize_withFileName {path : ModulePath} {name : String} (h : path.fileName? = some name)
    (other : String) :
    (path.withFileName other).normalize = path.normalize.withFileName other := by
  obtain ⟨steps, hsteps⟩ := exists_of_fileName? h
  obtain ⟨rooted, _⟩ := path
  subst hsteps
  simp only [withFileName, normalize_concat, child, List.dropLast_concat]

/-! ## Paths that are read -/

/-- A text that stands for itself between two slashes. -/
def IsName (text : String) : Prop :=
  text.toList ≠ [] ∧ '/' ∉ text.toList ∧ text.toList ≠ ['.'] ∧ text.toList ≠ ['.', '.']

instance (text : String) : Decidable (IsName text) :=
  inferInstanceAs (Decidable (_ ∧ _ ∧ _ ∧ _))

/-- A step `.` stands at the begin only, and names are names. -/
structure WellFormed (path : ModulePath) : Prop where
  here : .here ∉ path.steps.tail
  names : ∀ text, .name text ∈ path.steps → IsName text

theorem isName_of_stepOf {piece : List Char} {text : String} (hne : piece ≠ [])
    (hslash : '/' ∉ piece) (h : stepOf piece = .name text) : IsName text := by
  unfold stepOf at h
  split at h
  · cases h
  · split at h
    · cases h
    · obtain rfl := Step.name.inj h
      simp_all [IsName]

theorem stepOf_of_isName {text : String} (h : IsName text) : stepOf text.toList = .name text := by
  rw [stepOf, if_neg (by simpa using h.2.2.1), if_neg (by simpa using h.2.2.2),
    String.ofList_toList]

/-- The steps that the pieces of a text stand for. -/
def stepsOf (chars : List Char) : List Step :=
  ((chars.splitOnP (· == '/')).filter (!·.isEmpty)).map stepOf

theorem isName_of_mem_stepsOf {chars : List Char} {text : String}
    (h : .name text ∈ stepsOf chars) : IsName text := by
  obtain ⟨piece, hpiece, hstep⟩ := List.mem_map.mp h
  obtain ⟨hmem, hne⟩ := List.mem_filter.mp hpiece
  rw [List.splitOnP_eq_splitOnPPrepend] at hmem
  refine isName_of_stepOf (by simpa using hne) (fun hslash => ?_) hstep
  exact absurd (not_of_mem_splitOnPPrepend (by simp) hmem '/' hslash) (by simp)

theorem wellFormed_ofString (path : String) : (ofString path).WellFormed := by
  have hfilter : ∀ steps : List Step, .here ∉ steps.filter (· != .here) := by
    intro steps hmem
    exact absurd (List.mem_filter.mp hmem).2 (by simp)
  have hnames : ∀ text, .name text ∈ stepsOf path.toList → IsName text :=
    fun text => isName_of_mem_stepsOf
  unfold ofString
  simp only
  split
  · next rest hsteps =>
    rw [stepsOf, hsteps] at hnames
    refine ⟨fun hmem => ?_, fun text hmem => hnames text ?_⟩
    · split at hmem
      · exact hfilter rest (List.mem_of_mem_tail hmem)
      · exact hfilter rest hmem
    · rcases List.mem_append.mp hmem with hmem | hmem
      · split at hmem
        · exact absurd hmem List.not_mem_nil
        · exact absurd (List.mem_singleton.mp hmem) (by simp)
      · exact List.mem_cons_of_mem _ (List.mem_filter.mp hmem).1
  · exact ⟨fun hmem => hfilter _ (List.mem_of_mem_tail hmem),
      fun text hmem => hnames text (List.mem_filter.mp hmem).1⟩

theorem wellFormed_directory {path : ModulePath} (h : path.WellFormed) :
    path.directory.WellFormed := by
  unfold directory
  split
  · exact ⟨List.not_mem_nil, fun _ hmem => absurd hmem List.not_mem_nil⟩
  · refine ⟨fun hmem => h.here ?_, fun text hmem => h.names text ((List.dropLast_sublist _).mem hmem)⟩
    rw [List.tail_dropLast] at hmem
    exact (List.dropLast_sublist _).mem hmem

/-- More steps without `.` keep a path well-formed. -/
theorem WellFormed.append {path : ModulePath} (h : path.WellFormed) {steps : List Step}
    (hhere : .here ∉ steps) (hnames : ∀ text, .name text ∈ steps → IsName text) :
    WellFormed ⟨path.rooted, path.steps ++ steps⟩ where
  here hmem := by
    rw [List.tail_append] at hmem
    split at hmem
    · exact hhere (List.mem_of_mem_tail hmem)
    · exact (List.mem_append.mp hmem).elim h.here hhere
  names text hmem := (List.mem_append.mp hmem).elim (h.names text) (hnames text)

theorem wellFormed_join {path other : ModulePath} (h : path.WellFormed) (hother : other.WellFormed) :
    (path.join other).WellFormed := by
  obtain ⟨hhere, hnames⟩ := hother
  unfold join
  split
  · next rest hsteps =>
    rw [hsteps] at hhere hnames
    split
    · exact h.append hhere fun text hmem => hnames text (List.mem_cons_of_mem _ hmem)
    · rw [hsteps]
      exact ⟨hhere, hnames⟩
  · next hsteps =>
    refine h.append (fun hmem => ?_) hnames
    cases hother : other.steps with
    | nil => simp [hother] at hmem
    | cons step rest =>
      rw [hother] at hmem hhere
      rcases List.mem_cons.mp hmem with rfl | hmem
      · exact hsteps rest hother
      · exact hhere hmem

theorem mem_of_mem_foldl_walk {steps : List Step} {reached : List String} {text : String}
    (h : text ∈ steps.foldl walk reached) : text ∈ reached ∨ .name text ∈ steps := by
  induction steps generalizing reached with
  | nil => exact .inl h
  | cons step steps ih =>
    rcases ih h with hmem | hmem
    · cases step with
      | here => exact .inl hmem
      | up => exact .inl (List.mem_of_mem_tail hmem)
      | name other =>
        rcases List.mem_cons.mp hmem with rfl | hmem
        · exact .inr List.mem_cons_self
        · exact .inl hmem
    · exact .inr (List.mem_cons_of_mem _ hmem)

/-- A normal form consists of names of the path. -/
theorem exists_normalize_eq {path : ModulePath} (h : path.WellFormed) :
    ∃ names : List String, path.normalize = ⟨path.rooted, names.map .name⟩ ∧
      ∀ name ∈ names, IsName name := by
  refine ⟨(path.steps.foldl walk []).reverse, rfl, fun name hname => h.names name ?_⟩
  exact (mem_of_mem_foldl_walk (List.mem_reverse.mp hname)).resolve_left List.not_mem_nil

theorem WellFormed.normalize {path : ModulePath} (h : path.WellFormed) : path.normalize.WellFormed := by
  obtain ⟨names, hnames, hvalid⟩ := exists_normalize_eq h
  rw [hnames]
  refine ⟨fun hmem => ?_, fun text hmem => ?_⟩
  · simpa using List.mem_of_mem_tail hmem
  · obtain ⟨name, hname, heq⟩ := List.mem_map.mp hmem
    exact Step.name.inj heq ▸ hvalid name hname

/-! ## Texts of normal forms -/

/-- A text for a path of names. -/
def spelled (rooted : Bool) (names : List String) : String :=
  String.ofList ((if rooted then ['/'] else []) ++ ['/'].intercalate (names.map String.toList))

theorem stepsOf_slash (chars : List Char) : stepsOf ('/' :: chars) = stepsOf chars := by
  have h := List.splitOnP_append_cons (p := (· == '/')) [] chars (beq_self_eq_true '/')
  rw [List.nil_append] at h
  simp [stepsOf, h]

theorem stepsOf_intercalate {names : List String} (hne : names ≠ [])
    (h : ∀ name ∈ names, IsName name) :
    stepsOf (['/'].intercalate (names.map String.toList)) = names.map .name := by
  have hsplit : (['/'].intercalate (names.map String.toList)).splitOnP (· == '/') =
      names.map String.toList := by
    refine List.splitOn_intercalate '/' (fun piece hpiece => ?_) (by simpa using hne)
    obtain ⟨name, hname, rfl⟩ := List.mem_map.mp hpiece
    exact (h name hname).2.1
  have hfilter : (names.map String.toList).filter (!·.isEmpty) = names.map String.toList := by
    refine List.filter_eq_self.mpr fun piece hpiece => ?_
    obtain ⟨name, hname, rfl⟩ := List.mem_map.mp hpiece
    simpa using (h name hname).1
  rw [stepsOf, hsplit, hfilter, List.map_map]
  exact List.map_congr_left fun name hname => stepOf_of_isName (h name hname)

theorem head?_intercalate_ne {names : List String} (h : ∀ name ∈ names, IsName name) :
    (['/'].intercalate (names.map String.toList)).head? ≠ some '/' := by
  cases names with
  | nil => simp
  | cons name rest =>
    obtain ⟨hne, hslash, -⟩ := h name List.mem_cons_self
    obtain ⟨c, chars, hchars⟩ := List.exists_cons_of_ne_nil hne
    have hc : c ≠ '/' := by
      rintro rfl
      exact hslash (hchars ▸ List.mem_cons_self)
    cases rest with
    | nil => simpa [hchars] using hc
    | cons other rest => simpa [List.intercalate_cons_cons, hchars] using hc

theorem ofString_spelled (rooted : Bool) {names : List String} (hne : names ≠ [])
    (h : ∀ name ∈ names, IsName name) :
    ofString (spelled rooted names) = ⟨rooted, names.map .name⟩ := by
  have hhead := head?_intercalate_ne h
  have hroot : ((spelled rooted names).toList.head? == some '/') = rooted := by
    cases rooted with
    | true => simp [spelled]
    | false => simpa [spelled] using hhead
  have hsteps : stepsOf (spelled rooted names).toList = names.map .name := by
    rw [← stepsOf_intercalate hne h]
    cases rooted with
    | true => simp [spelled, stepsOf_slash]
    | false => simp [spelled]
  have hfilter : (names.map Step.name).filter (· != .here) = names.map .name :=
    List.filter_eq_self.mpr fun step hstep => by
      obtain ⟨name, -, rfl⟩ := List.mem_map.mp hstep
      rfl
  unfold ofString
  simp only [hroot]
  rw [stepsOf] at hsteps
  split
  · next rest heq =>
    rw [heq] at hsteps
    cases names with
    | nil => exact absurd rfl hne
    | cons name names => cases hsteps
  · rw [hsteps, hfilter]

/-! ## Paths without a file name -/

/-- The path ends with a step up, but it leads to a place that has a name. -/
def EndsUpward (path : ModulePath) : Prop :=
  path.steps.getLast? = some .up ∧ path.normalize.steps ≠ []

instance (path : ModulePath) : Decidable path.EndsUpward :=
  inferInstanceAs (Decidable (_ ∧ _))

theorem fileName?_of_endsUpward {path : ModulePath} (h : path.EndsUpward) : path.fileName? = none := by
  rw [fileName?, h.1]

/-- A path without a file name ends upward, or it leads nowhere. -/
theorem steps_normalize_of_fileName? {path : ModulePath} (h : path.WellFormed)
    (hname : path.fileName? = none) (hup : ¬ path.EndsUpward) : path.normalize.steps = [] := by
  rcases List.eq_nil_or_concat path.steps with hnil | ⟨steps, step, hsteps⟩
  · rw [normalize, hnil]
    rfl
  · have hlast : path.steps.getLast? = some step := by simp [hsteps]
    cases step with
    | name text => simp [fileName?, hlast] at hname
    | up =>
      by_contra hne
      exact hup ⟨hlast, hne⟩
    | here =>
      -- a step `.` at the end is the only step
      have hhere := h.here
      rw [hsteps] at hhere
      cases steps with
      | nil =>
        rw [normalize, hsteps]
        rfl
      | cons first rest => simp at hhere

/-- A normal form with a step has a file name. -/
theorem exists_fileName?_normalize {path : ModulePath} (h : path.normalize.steps ≠ []) :
    ∃ name, path.normalize.fileName? = some name := by
  cases hwalk : path.steps.foldl walk [] with
  | nil => simp [normalize, hwalk] at h
  | cons name names => exact ⟨name, by simp [normalize, fileName?, hwalk]⟩

end ModulePath

namespace ModuleGraph

open ModulePath

/-! ## Candidates -/

/-- The places where a search looks for the module at a path, in order: the path itself, the path
with an extension, and the index files of the directory. -/
def candidates (path : ModulePath) : List ModulePath :=
  match path.fileName? with
  | none => [path]
  | some name =>
    path :: (extensions.map (fun ext => path.withFileName (name ++ "." ++ ext)) ++
      extensions.map fun ext => path.child ("index." ++ ext))

theorem candidates_of_fileName? {path : ModulePath} {name : String}
    (h : path.fileName? = some name) :
    candidates path =
      path :: (extensions.map (fun ext => path.withFileName (name ++ "." ++ ext)) ++
        extensions.map fun ext => path.child ("index." ++ ext)) := by
  rw [candidates, h]

theorem candidates_of_fileName?_none {path : ModulePath} (h : path.fileName? = none) :
    candidates path = [path] := by
  rw [candidates, h]

/-- A search takes the first candidate whose normal form is stored. -/
theorem lookup?_eq (graph : ModuleGraph) (path : ModulePath) :
    graph.lookup? path =
      ((candidates path).map normalize).findSome? fun place => graph.units.lookup place := by
  have hget : (fun place => graph.units.lookup place) ∘ normalize = graph.get? := rfl
  rw [List.findSome?_map, hget]
  cases hname : path.fileName? with
  | none =>
    rw [candidates_of_fileName?_none hname, lookup?, hname, List.findSome?_singleton]
    cases graph.get? path <;> rfl
  | some name =>
    rw [candidates_of_fileName? hname, lookup?, hname, List.findSome?_cons]
    cases graph.get? path <;> rfl

/-- The candidates of a path that does not end upward are those of its normal form. -/
theorem map_normalize_candidates {path : ModulePath} (h : path.WellFormed)
    (hup : ¬ path.EndsUpward) : (candidates path).map normalize = candidates path.normalize := by
  cases hname : path.fileName? with
  | none =>
    have hnone : path.normalize.fileName? = none := by
      rw [fileName?, steps_normalize_of_fileName? h hname hup]
      rfl
    rw [candidates_of_fileName?_none hname, candidates_of_fileName?_none hnone, List.map_singleton]
  | some name =>
    rw [candidates_of_fileName? hname, candidates_of_fileName? (fileName?_normalize hname)]
    simp only [List.map_cons, List.map_append, List.map_map, Function.comp_def,
      normalize_withFileName hname, normalize_child]

/-- A path that does not end upward finds what its normal form finds. -/
theorem lookup?_of_not_endsUpward {path : ModulePath} (h : path.WellFormed)
    (hup : ¬ path.EndsUpward) (graph : ModuleGraph) :
    graph.lookup? path =
      (candidates path.normalize).findSome? fun place => graph.units.lookup place := by
  rw [lookup?_eq, map_normalize_candidates h hup]

/-- At a normal form the candidates are searched as they are. -/
theorem lookup?_normalize {path : ModulePath} (h : path.WellFormed) (graph : ModuleGraph) :
    graph.lookup? path.normalize =
      (candidates path.normalize).findSome? fun place => graph.units.lookup place := by
  have hup : ¬ path.normalize.EndsUpward := by
    rintro ⟨hlast, hne⟩
    obtain ⟨name, hname⟩ := exists_fileName?_normalize hne
    rw [normalize_normalize, fileName?, hlast] at hname
    cases hname
  rw [lookup?_of_not_endsUpward h.normalize hup, normalize_normalize]

theorem lookup_ofList_singleton (unit : SourceUnit) (place : ModulePath) :
    (ofList [unit]).units.lookup place =
      if place = (ofString unit.path).normalize then some unit else none := by
  have hunits : (ofList [unit]).units = [((ofString unit.path).normalize, unit)] := rfl
  rw [hunits, List.lookup_cons]
  split
  · next heq => rw [if_pos (beq_iff_eq.mp heq)]
  · next hne => rw [if_neg (by simpa using hne), List.lookup_nil]

/-- For a path that ends upward there is a graph that its normal form finds a module in, but the path
does not: the index file of the place it leads to is never tried. -/
theorem exists_lookup?_ne {path : ModulePath} (h : path.WellFormed) (hup : path.EndsUpward) :
    ∃ unit, (ofList [unit]).lookup? path ≠ (ofList [unit]).lookup? path.normalize := by
  obtain ⟨names, hnames, hvalid⟩ := exists_normalize_eq h
  have hvalid' : ∀ name ∈ names ++ ["index.ts"], IsName name := by
    intro name hname
    rcases List.mem_append.mp hname with hname | hname
    · exact hvalid name hname
    · rw [List.mem_singleton.mp hname]
      decide
  let unit : SourceUnit := { path := spelled path.rooted (names ++ ["index.ts"]) }
  have hkey : (ofString unit.path).normalize =
      ⟨path.rooted, (names ++ ["index.ts"]).map .name⟩ := by
    rw [ofString_spelled path.rooted (by simp) hvalid', normalize_names]
  -- the path itself is not stored
  have hmiss : (ofList [unit]).lookup? path = none := by
    rw [lookup?_eq, candidates_of_fileName?_none (fileName?_of_endsUpward hup), List.map_singleton,
      List.findSome?_singleton, lookup_ofList_singleton, hkey, hnames, if_neg]
    intro heq
    have hlength := congrArg (fun p : ModulePath => p.steps.length) heq
    simp at hlength
  -- the index file is among the candidates of the normal form
  have hchild : path.normalize.child "index.ts" =
      ⟨path.rooted, (names ++ ["index.ts"]).map .name⟩ := by
    rw [child, hnames, List.map_append]
    rfl
  obtain ⟨name, hname⟩ := exists_fileName?_normalize hup.2
  refine ⟨unit, fun heq => ?_⟩
  rw [hmiss, lookup?_normalize h, candidates_of_fileName? hname] at heq
  have hnone := List.findSome?_eq_none_iff.mp heq.symm (path.normalize.child "index.ts")
    (List.mem_cons_of_mem _ (List.mem_append_right _ (by simp [extensions])))
  rw [lookup_ofList_singleton, hkey, hchild, if_pos rfl] at hnone
  cases hnone

theorem wellFormed_target (origin specifier : String) : (target origin specifier).WellFormed := by
  unfold target
  split
  · exact wellFormed_join (wellFormed_directory (wellFormed_ofString origin))
      (wellFormed_ofString specifier)
  · exact wellFormed_ofString specifier

/-- A search finds in every graph what the candidates of the normal form give, iff the path does not
end upward. -/
theorem forall_lookup?_iff {path : ModulePath} (h : path.WellFormed) :
    (∀ units, (ofList units).lookup? path = (ofList units).lookup? path.normalize) ↔
      ¬ path.EndsUpward := by
  constructor
  · intro hall hup
    obtain ⟨unit, hne⟩ := exists_lookup?_ne h hup
    exact hne (hall [unit])
  · intro hup units
    rw [lookup?_of_not_endsUpward h hup, lookup?_normalize h]

/-- What a path, or a specifier in a unit, finds depends only on the normal form of the path, iff the
path does not end upward: then it is what the candidates of the normal form give. -/
theorem lookup?_normalize_iff (base : String) (unit : SourceUnit) (specifier : String) :
    ((∀ units, (ofList units).lookup? (ofString base) =
        (ofList units).lookup? (ofString base).normalize) ↔ ¬ (ofString base).EndsUpward) ∧
      ((∀ units, (ofList units).resolver unit specifier =
        (candidates (target unit.path specifier).normalize).findSome?
          fun place => (ofList units).units.lookup place) ↔
        ¬ (target unit.path specifier).EndsUpward) := by
  have htarget := wellFormed_target unit.path specifier
  refine ⟨forall_lookup?_iff (wellFormed_ofString base), ?_⟩
  simp only [resolver, ← lookup?_normalize htarget]
  exact forall_lookup?_iff htarget

/-- A unit that imports from the directory above it does not find the index file there. -/
theorem parent_index_not_found :
    let graph := ofList [{ path := "/src/index.ts" }]
    let unit : SourceUnit := { path := "/src/components/button.tsx" }
    isRelative "../" = true ∧ (graph.resolver unit "../").isNone = true ∧
      (graph.lookup? (target unit.path "../").normalize).map SourceUnit.path =
        some "/src/index.ts" ∧
      ¬ ∀ (units : List SourceUnit) (base : String),
        (ofList units).lookup? (ofString base) = (ofList units).lookup? (ofString base).normalize := by
  intro graph unit
  refine ⟨by decide, by decide +kernel, by decide +kernel, fun hclaim => ?_⟩
  have hsame := congrArg Option.isSome
    (hclaim [{ path := "/src/index.ts" }] "/src/components/..")
  revert hsame
  decide +kernel

end ModuleGraph

end AtomicStyle
