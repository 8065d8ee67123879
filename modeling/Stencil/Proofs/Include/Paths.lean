import Mathlib.Data.List.DropRight
import Stencil.Include.Path

/-!
# The components of a path

A path is read as its components: the root or a lone dot in front, and the names.  What stands between two
slashes and names nothing is no component, so several paths have the same components.

* `components` : the components of a path.
* `components_directory` : the directory of a path lacks its last component.
* `components_join` : a path taken from a directory has the components of both.
* `base` : the pieces that a directory puts in front of a path; `pieces_join` says so.
* `base_directory_join`, `directory_join` : the directory of a file is what the file was taken from, apart from
  idle pieces at its end.
-/

namespace Stencil.Include

/-! ### Pieces -/

theorem pieces_ne_nil (path : List Char) : pieces path ≠ [] := List.splitOn_ne_nil '/' path

theorem joinPieces_pieces (path : List Char) : joinPieces (pieces path) = path :=
  List.intercalate_splitOn '/'

theorem pieces_append_slash (dir path : List Char) :
    pieces (dir ++ '/' :: path) = pieces dir ++ pieces path :=
  List.splitOn_append_cons_self dir path

theorem pieces_joinPieces {parts : List (List Char)} (hne : parts ≠ [])
    (hfree : ∀ piece ∈ parts, '/' ∉ piece) : pieces (joinPieces parts) = parts :=
  List.splitOn_intercalate '/' hfree hne

/-- No piece has a slash. -/
theorem slash_notMem_of_mem_pieces {path piece : List Char} (h : piece ∈ pieces path) : '/' ∉ piece := by
  rw [pieces, List.splitOn_eq_splitOnP] at h
  induction path generalizing piece with
  | nil =>
    rw [List.mem_singleton.1 h]
    exact List.not_mem_nil
  | cons c path ih =>
    rw [List.splitOnP_cons_eq_if_modifyHead] at h
    split at h
    · rcases List.mem_cons.1 h with rfl | h
      · exact List.not_mem_nil
      · exact ih h
    · -- the first piece gets one more character, which is no slash
      rename_i hc
      obtain ⟨first, rest, hpieces⟩ := List.exists_cons_of_ne_nil (List.splitOnP_ne_nil (· == '/') path)
      rw [hpieces] at h ih
      rcases List.mem_cons.1 h with rfl | h
      · have hfirst : '/' ∉ first := ih List.mem_cons_self
        simp only [beq_iff_eq] at hc
        rw [List.mem_cons, not_or]
        exact ⟨fun heq => hc heq.symm, hfirst⟩
      · exact ih (List.mem_cons_of_mem _ h)

theorem pieces_eq_singleton {path : List Char} (h : '/' ∉ path) : pieces path = [path] := by
  have hone := pieces_joinPieces (List.cons_ne_nil path []) (by simpa using h)
  rwa [joinPieces, List.intercalate_singleton] at hone

theorem joinPieces_cons {first : List Char} {rest : List (List Char)} (h : rest ≠ []) :
    joinPieces (first :: rest) = first ++ '/' :: joinPieces rest := by
  rw [joinPieces, List.intercalate_cons_of_ne_nil h, List.append_assoc]
  rfl

/-! ### Directories -/

/-- Pieces without the last name and without idle pieces at the end of what is left. -/
def above (parts : List (List Char)) : List (List Char) :=
  (parts.rdropWhile isIdle).dropLast.rdropWhile isIdle

variable {path first piece dir : List Char} {parts rest : List (List Char)}

theorem rdropWhile_cons (piece : List Char) (parts : List (List Char)) :
    (piece :: parts).rdropWhile isIdle =
      if parts.rdropWhile isIdle = [] then [piece].rdropWhile isIdle
      else piece :: parts.rdropWhile isIdle := by
  simp only [List.rdropWhile, List.reverse_cons, List.dropWhile_append, List.isEmpty_iff,
    List.reverse_eq_nil_iff, List.reverse_nil, List.nil_append]
  split <;> simp

theorem above_cons (h : parts.rdropWhile isIdle ≠ []) (piece : List Char) :
    above (piece :: parts) = if above parts = [] then [piece].rdropWhile isIdle else piece :: above parts := by
  rw [above, rdropWhile_cons, if_neg h, List.dropLast_cons_of_ne_nil h, rdropWhile_cons]
  rfl

/-- What is above a name. -/
theorem above_concat (h : isIdle piece = false) (parts : List (List Char)) :
    above (parts ++ [piece]) = parts.rdropWhile isIdle := by
  rw [above, List.rdropWhile_concat_neg isIdle parts piece (by simp [h]), List.dropLast_concat]

/-- The directory of a path in terms of the pieces behind its anchor. -/
theorem directory_eq_of_body (start body : List Char) (hstart : anchor path = start)
    (hbody : path.drop start.length = body) :
    directory path =
      if (pieces body).rdropWhile isIdle = [] then [] else start ++ joinPieces (above (pieces body)) := by
  subst hstart hbody
  unfold directory above
  dsimp only
  generalize pieces (path.drop (anchor path).length) = parts
  have hreverse : parts.reverse.dropWhile isIdle = (parts.rdropWhile isIdle).reverse := by
    rw [List.rdropWhile, List.reverse_reverse]
  rw [hreverse]
  rcases List.eq_nil_or_concat (parts.rdropWhile isIdle) with hnil | ⟨r, x, hr⟩
  · rw [hnil]
    rfl
  · rw [hr, List.concat_eq_append, List.reverse_append, List.dropLast_concat]
    exact (if_neg (by simp)).symm

/-- A name has no anchor, whatever follows. -/
theorem anchor_of_name (hname : isIdle first = false) (hfree : '/' ∉ first) (tail : List Char) :
    anchor (first ++ tail) = [] := by
  match first, hname, hfree with
  | [c], hname, hfree =>
    have hdot : c ≠ '.' := by
      rintro rfl
      cases hname
    have hslash : c ≠ '/' := by
      rintro rfl
      exact hfree List.mem_cons_self
    unfold anchor
    split
    · rename_i heq
      exact absurd (List.cons.inj heq).1 hslash
    · rename_i heq
      exact absurd (List.cons.inj heq).1 hdot
    · rename_i heq
      exact absurd (List.cons.inj heq).1 hdot
    · rfl
  | c :: c₂ :: cs, hname, hfree =>
    simp only [List.mem_cons, not_or] at hfree
    unfold anchor
    split
    · rename_i heq
      exact absurd (List.cons.inj heq).1.symm hfree.1
    · rename_i heq
      cases heq
    · rename_i heq
      exact absurd (List.cons.inj (List.cons.inj heq).2).1.symm hfree.2.1
    · rfl

theorem idle_cases (h : isIdle piece = true) : piece = [] ∨ piece = ['.'] := by
  simpa [isIdle] using h

theorem singleton_rdropWhile (h : isIdle piece = false) : [piece].rdropWhile isIdle = [piece] := by
  rw [List.rdropWhile_singleton, h]
  rfl

/-- A path without a slash has the empty directory. -/
theorem directory_of_no_slash (h : '/' ∉ path) : directory path = [] := by
  cases hidle : isIdle path with
  | true => rcases idle_cases hidle with rfl | rfl <;> rfl
  | false =>
    have hanchor := anchor_of_name hidle h []
    rw [List.append_nil] at hanchor
    rw [directory_eq_of_body [] path hanchor rfl, pieces_eq_singleton h,
      singleton_rdropWhile hidle, if_neg (List.cons_ne_nil _ _), ← List.nil_append [path], above_concat hidle]
    rfl

/-- The directory of an absolute path. -/
theorem directory_slash (path : List Char) :
    directory ('/' :: path) =
      if (pieces path).rdropWhile isIdle = [] then []
      else if above (pieces path) = [] then ['/'] else joinPieces ([] :: above (pieces path)) := by
  rw [directory_eq_of_body ['/'] path rfl rfl]
  split
  · rfl
  · split
    · rename_i hnil
      rw [hnil]
      rfl
    · rename_i hne
      rw [joinPieces_cons hne]
      rfl

/-- The directory of a path with a lone dot in front. -/
theorem directory_dot_slash (path : List Char) :
    directory ('.' :: '/' :: path) =
      if (pieces path).rdropWhile isIdle = [] then [] else joinPieces (['.'] :: above (pieces path)) := by
  have hbody : pieces ('/' :: path) = [] :: pieces path := pieces_append_slash [] path
  rw [directory_eq_of_body ['.'] ('/' :: path) rfl rfl, hbody, rdropWhile_cons]
  split
  · rfl
  · rename_i hne
    rw [if_neg (List.cons_ne_nil _ _), above_cons hne]
    split
    · rename_i hnil
      rw [hnil]
      rfl
    · rename_i habove
      rw [joinPieces_cons habove, joinPieces_cons habove]
      rfl

/-- The directory of a path with a name in front. -/
theorem directory_name_slash (hname : isIdle first = false) (hfree : '/' ∉ first) (path : List Char) :
    directory (first ++ '/' :: path) =
      if (pieces path).rdropWhile isIdle = [] then [] else joinPieces (first :: above (pieces path)) := by
  rw [directory_eq_of_body [] (first ++ '/' :: path) (anchor_of_name hname hfree _) rfl,
    pieces_append_slash, pieces_eq_singleton hfree, List.singleton_append, rdropWhile_cons]
  split
  · rename_i hnil
    rw [singleton_rdropWhile hname, if_neg (List.cons_ne_nil _ _), above, rdropWhile_cons, if_pos hnil,
      singleton_rdropWhile hname]
    rfl
  · rename_i hne
    rw [if_neg (List.cons_ne_nil _ _), above_cons hne, singleton_rdropWhile hname]
    split
    · rename_i hnil
      rw [hnil]
      rfl
    · rfl

/-- The directory of a path in terms of its pieces. -/
theorem directory_eq (h : pieces path = first :: rest) :
    directory path =
      if rest.rdropWhile isIdle = [] then []
      else if first = [] ∧ above rest = [] then ['/'] else joinPieces (first :: above rest) := by
  have hpath := joinPieces_pieces path
  have hfirst : '/' ∉ first := slash_notMem_of_mem_pieces (by rw [h]; exact List.mem_cons_self)
  rw [h] at hpath
  by_cases hrest : rest = []
  · -- there is no slash
    subst hrest
    rw [joinPieces, List.intercalate_singleton] at hpath
    exact directory_of_no_slash (hpath ▸ hfirst)
  · rw [joinPieces_cons hrest] at hpath
    have hpieces : pieces (joinPieces rest) = rest := by
      rw [← hpath, pieces_append_slash, pieces_eq_singleton hfirst] at h
      exact (List.cons.inj h).2
    rw [← hpath]
    -- what stands before the first slash decides how the path starts
    cases hidle : isIdle first with
    | true =>
      rcases idle_cases hidle with rfl | rfl
      · rw [List.nil_append, directory_slash, hpieces]
        simp only [true_and]
      · rw [List.singleton_append, directory_dot_slash, hpieces]
        simp only [List.cons_ne_nil, false_and, if_false]
    | false =>
      have hne : first ≠ [] := by
        rintro rfl
        cases hidle
      rw [directory_name_slash hidle hfirst, hpieces]
      simp only [hne, false_and, if_false]

/-- The pieces of the directory of a path that names something behind its first piece. -/
theorem pieces_directory (h : pieces path = first :: rest) (hrest : rest.rdropWhile isIdle ≠ []) :
    pieces (directory path) = first :: if first = [] ∧ above rest = [] then [[]] else above rest := by
  rw [directory_eq h, if_neg hrest]
  split
  · rename_i hroot
    rw [hroot.1]
    rfl
  · refine pieces_joinPieces (List.cons_ne_nil _ _) fun piece hpiece => ?_
    refine @slash_notMem_of_mem_pieces path piece ?_
    have habove : above rest ⊆ rest := fun piece hmem =>
      (List.rdropWhile_prefix isIdle _).subset
        (List.dropLast_subset _ ((List.rdropWhile_prefix isIdle _).subset hmem))
    rw [h]
    exact List.cons_subset_cons first habove hpiece

/-! ### Components -/

/-- A component of a path. -/
inductive Component where
  /-- The root, which an absolute path starts with. -/
  | root
  /-- A lone dot that a path starts with. -/
  | here
  /-- A name; two dots name the directory above. -/
  | name (chars : List Char)
  deriving DecidableEq, Repr

/-- The component that a path starts with. -/
def Component.front (piece : List Char) : Component :=
  if piece = [] then .root else if piece = ['.'] then .here else .name piece

/-- The names among some pieces. -/
def names (parts : List (List Char)) : List Component := (parts.filter (!isIdle ·)).map .name

/-- The components of a path; the empty path has none. -/
def components (path : List Char) : List Component :=
  match pieces path with
  | [] => []
  | first :: rest => if path = [] then [] else .front first :: names rest

theorem components_nil : components [] = [] := rfl

theorem components_eq (h : pieces path = first :: rest) (hne : path ≠ []) :
    components path = .front first :: names rest := by
  rw [components, h]
  exact if_neg hne

theorem names_append (parts others : List (List Char)) :
    names (parts ++ others) = names parts ++ names others := by
  rw [names, List.filter_append, List.map_append]
  rfl

theorem names_eq_nil_iff : names parts = [] ↔ parts.rdropWhile isIdle = [] := by
  rw [names, List.map_eq_nil_iff, List.filter_eq_nil_iff, List.rdropWhile_eq_nil_iff]
  simp

theorem names_rdropWhile (parts : List (List Char)) : names (parts.rdropWhile isIdle) = names parts := by
  have hidle : names (parts.rtakeWhile isIdle) = [] := by
    rw [names_eq_nil_iff, List.rdropWhile_eq_nil_iff]
    exact fun piece => List.mem_rtakeWhile_imp
  conv_rhs => rw [← List.rdropWhile_append_rtakeWhile (p := isIdle) (l := parts)]
  rw [names_append, hidle, List.append_nil]

theorem names_above (parts : List (List Char)) : names (above parts) = (names parts).dropLast := by
  rw [above, names_rdropWhile, ← names_rdropWhile parts]
  by_cases hnil : parts.rdropWhile isIdle = []
  · rw [hnil]
    rfl
  · have hlast := List.rdropWhile_last_not isIdle parts hnil
    rw [← List.dropLast_append_getLast hnil, names_append, List.dropLast_concat]
    simp [names, hlast]

/-- **Directories.**  The directory of a path lacks its last component. -/
theorem components_directory (path : List Char) : components (directory path) = (components path).dropLast := by
  obtain ⟨first, rest, h⟩ := List.exists_cons_of_ne_nil (pieces_ne_nil path)
  by_cases hpath : path = []
  · rw [hpath]
    rfl
  rw [components_eq h hpath]
  by_cases hrest : rest.rdropWhile isIdle = []
  · rw [directory_eq h, if_pos hrest, components_nil, ← names_rdropWhile, hrest]
    rfl
  · have hpieces := pieces_directory h hrest
    have hne : directory path ≠ [] := by
      intro hnil
      rw [hnil] at hpieces
      obtain ⟨hfirst, htail⟩ := List.cons.inj hpieces
      split at htail
      · cases htail
      · rename_i hroot
        exact hroot ⟨hfirst.symm, htail.symm⟩
    rw [components_eq hpieces hne, List.dropLast_cons_of_ne_nil (mt names_eq_nil_iff.1 hrest), ← names_above]
    split
    · rename_i hroot
      rw [hroot.2]
      rfl
    · rfl

/-- A path is absolute if it starts with the root. -/
theorem isAbsolute_eq (path : List Char) : isAbsolute path = ((components path).head? == some .root) := by
  cases path with
  | nil => rfl
  | cons c path =>
    by_cases hc : c = '/'
    · have hpieces : pieces ('/' :: path) = [] :: pieces path := pieces_append_slash [] path
      rw [hc, components_eq hpieces (List.cons_ne_nil _ _)]
      rfl
    · obtain ⟨first, rest, h⟩ := List.exists_cons_of_ne_nil (pieces_ne_nil (c :: path))
      have hpath := joinPieces_pieces (c :: path)
      have hfirst : first ≠ [] := by
        rintro rfl
        by_cases hrest : rest = []
        · rw [h, hrest] at hpath
          cases hpath
        · rw [h, joinPieces_cons hrest] at hpath
          exact hc (List.cons.inj hpath).1.symm
      have hfront : Component.front first ≠ .root := by
        rw [Component.front, if_neg hfirst]
        split <;> simp
      rw [components_eq h (List.cons_ne_nil _ _), isAbsolute, List.head?_cons, List.head?_cons,
        Option.some_beq_some, Option.some_beq_some, beq_eq_false_iff_ne.2 hc, beq_eq_false_iff_ne.2 hfront]

/-! ### Paths from a directory -/

/-- The pieces that a directory puts in front of a path. -/
def base (dir : List Char) : List (List Char) :=
  if dir = [] then [] else if dir.getLast? = some '/' then (pieces dir).dropLast else pieces dir

theorem base_of_slash (dir : List Char) : base (dir ++ ['/']) = pieces dir := by
  rw [base, if_neg (by simp), if_pos List.getLast?_concat, pieces_append_slash]
  exact List.dropLast_concat

theorem base_of_no_slash (hne : dir ≠ []) (h : dir.getLast? ≠ some '/') : base dir = pieces dir := by
  rw [base, if_neg hne, if_neg h]

/-- A directory that does not end in an empty piece puts its own pieces in front. -/
theorem base_eq_pieces (h : (pieces dir).getLast? ≠ some []) : base dir = pieces dir := by
  refine base_of_no_slash ?_ fun hslash => h ?_
  · rintro rfl
    exact h rfl
  · obtain ⟨dir, rfl⟩ := List.getLast?_eq_some_iff.1 hslash
    rw [pieces_append_slash]
    exact List.getLast?_concat

/-- A path that is taken from a directory, piece by piece. -/
theorem pieces_join (hpath : isAbsolute path = false) (dir : List Char) :
    pieces (join dir path) = base dir ++ pieces path := by
  rw [join, hpath, if_neg Bool.false_ne_true]
  by_cases hnil : dir = []
  · rw [hnil]
    rfl
  by_cases hslash : dir.getLast? = some '/'
  · obtain ⟨dir, rfl⟩ := List.getLast?_eq_some_iff.1 hslash
    rw [if_pos (by simp), List.append_assoc, base_of_slash]
    exact pieces_append_slash dir path
  · rw [if_neg (by simp [hnil, hslash]), List.append_assoc, base_of_no_slash hnil hslash]
    exact pieces_append_slash dir path

theorem join_nil (path : List Char) : join [] path = path := by
  unfold join
  split <;> rfl

theorem exists_base (hne : dir ≠ []) :
    ∃ first rest, base dir = first :: rest ∧ components dir = .front first :: names rest := by
  by_cases hslash : dir.getLast? = some '/'
  · obtain ⟨dir, rfl⟩ := List.getLast?_eq_some_iff.1 hslash
    obtain ⟨first, rest, h⟩ := List.exists_cons_of_ne_nil (pieces_ne_nil dir)
    refine ⟨first, rest, by rw [base_of_slash, h], ?_⟩
    have hpieces : pieces (dir ++ ['/']) = first :: (rest ++ [[]]) := by
      rw [pieces_append_slash, h]
      rfl
    rw [components_eq hpieces hne, names_append]
    simp [names, isIdle]
  · obtain ⟨first, rest, h⟩ := List.exists_cons_of_ne_nil (pieces_ne_nil dir)
    exact ⟨first, rest, by rw [base_of_no_slash hne hslash, h], components_eq h hne⟩

/-- **Joining.**  A path that is taken from a directory has the components of the directory, and then its
own names. -/
theorem components_join (hpath : isAbsolute path = false) (dir : List Char) :
    components (join dir path) =
      if dir = [] then components path else components dir ++ names (pieces path) := by
  split
  · rename_i hnil
    rw [hnil, join_nil]
  · rename_i hne
    obtain ⟨first, rest, hbase, hcomponents⟩ := exists_base hne
    have hpieces := pieces_join hpath dir
    rw [hbase, List.cons_append] at hpieces
    have hjoin : join dir path ≠ [] := by
      intro hnil
      rw [hnil] at hpieces
      exact pieces_ne_nil path (List.append_eq_nil_iff.1 (List.cons.inj hpieces).2.symm).2
    rw [components_eq hpieces hjoin, names_append, hcomponents, List.cons_append]

/-! ### Files in a directory -/

/-- The name of a file: it has no slash, and it names something. -/
structure IsName (file : List Char) : Prop where
  /-- It is a single piece. -/
  slash : '/' ∉ file
  /-- It is neither empty nor a lone dot. -/
  idle : isIdle file = false

variable {file : List Char}

theorem IsName.pieces_eq (h : IsName file) : pieces file = [file] := pieces_eq_singleton h.slash

theorem IsName.isAbsolute_eq (h : IsName file) : isAbsolute file = false := by
  rw [isAbsolute, beq_eq_false_iff_ne]
  intro hhead
  exact h.slash (List.mem_of_head? hhead)

theorem directory_join_eq (h : IsName file) (hbase : base dir = first :: rest) :
    directory (join dir file) =
      if first = [] ∧ rest.rdropWhile isIdle = [] then ['/']
      else joinPieces (first :: rest.rdropWhile isIdle) := by
  have hpieces := pieces_join h.isAbsolute_eq dir
  rw [hbase, h.pieces_eq, List.cons_append] at hpieces
  have hrest : (rest ++ [file]).rdropWhile isIdle ≠ [] := by
    rw [List.rdropWhile_concat_neg isIdle rest file (by simp [h.idle])]
    simp
  rw [directory_eq hpieces, if_neg hrest, above_concat h.idle]

theorem slash_notMem_of_mem_base (h : piece ∈ base dir) : '/' ∉ piece := by
  refine @slash_notMem_of_mem_pieces dir piece ?_
  unfold base at h
  split at h
  · cases h
  · split at h
    · exact List.dropLast_subset _ h
    · exact h

theorem base_directory_join (h : IsName file) (hbase : base dir = first :: rest) :
    base (directory (join dir file)) = first :: rest.rdropWhile isIdle := by
  rw [directory_join_eq h hbase]
  split
  · rename_i hroot
    rw [hroot.1, hroot.2]
    rfl
  · rename_i hroot
    have hpieces : pieces (joinPieces (first :: rest.rdropWhile isIdle)) = first :: rest.rdropWhile isIdle := by
      refine pieces_joinPieces (List.cons_ne_nil _ _) fun piece hpiece => ?_
      refine @slash_notMem_of_mem_base piece dir ?_
      rw [hbase]
      exact List.cons_subset_cons first (List.rdropWhile_prefix isIdle rest).subset hpiece
    -- the last piece that is left names something, unless only the first one is left
    refine (base_eq_pieces ?_).trans hpieces
    rw [hpieces, List.getLast?_cons]
    by_cases hrest : rest.rdropWhile isIdle = []
    · rw [hrest]
      exact fun hnil => hroot ⟨Option.some.inj hnil, hrest⟩
    · have hlast := List.rdropWhile_last_not isIdle rest hrest
      rw [List.getLast?_eq_some_getLast hrest, Option.getD_some]
      intro hnil
      rw [Option.some.inj hnil] at hlast
      exact hlast rfl

/-- **Files in a directory.**  The directory of a file is what the file was taken from, apart from idle pieces
at its end. -/
theorem exists_base_directory_join (h : IsName file) (dir : List Char) :
    ∃ idle, (∀ piece ∈ idle, isIdle piece = true) ∧
      base dir = base (directory (join dir file)) ++ idle := by
  by_cases hne : dir = []
  · refine ⟨[], by simp, ?_⟩
    rw [hne, join_nil, directory_of_no_slash h.slash, List.append_nil]
  · obtain ⟨first, rest, hbase, -⟩ := exists_base hne
    refine ⟨rest.rtakeWhile isIdle, fun piece => List.mem_rtakeWhile_imp, ?_⟩
    rw [base_directory_join h hbase, hbase, List.cons_append, List.rdropWhile_append_rtakeWhile]

/-- A directory without idle pieces at its end: no directory at all, the root, a lone dot, or a path that ends
in a name. -/
def Tidy (dir : List Char) : Prop :=
  dir ∈ [[], ['/'], ['.']] ∨ ∃ piece, (pieces dir).getLast? = some piece ∧ isIdle piece = false

/-- The directory of a file in a tidy directory is that directory. -/
theorem directory_join (h : IsName file) (hdir : Tidy dir) : directory (join dir file) = dir := by
  rcases hdir with hmem | ⟨piece, hlast, hidle⟩
  · simp only [List.mem_cons, List.not_mem_nil, or_false] at hmem
    rcases hmem with rfl | rfl | rfl
    · rw [join_nil, directory_of_no_slash h.slash]
    · rw [directory_join_eq h (show base ['/'] = [[]] from rfl)]
      rfl
    · rw [directory_join_eq h (show base ['.'] = [['.']] from rfl)]
      rfl
  · have hbase : base dir = pieces dir := by
      refine base_eq_pieces ?_
      rw [hlast]
      rintro ⟨⟩
      cases hidle
    obtain ⟨first, rest, hpieces⟩ := List.exists_cons_of_ne_nil (pieces_ne_nil dir)
    rw [hpieces, List.getLast?_cons] at hlast
    have hrest : rest.rdropWhile isIdle = rest := by
      rw [List.rdropWhile_eq_self_iff]
      intro hne
      rw [List.getLast?_eq_some_getLast hne, Option.getD_some] at hlast
      rw [Option.some.inj hlast, hidle]
      exact Bool.false_ne_true
    have hroot : ¬(first = [] ∧ rest = []) := by
      rintro ⟨rfl, rfl⟩
      cases hlast
      cases hidle
    rw [directory_join_eq h (hbase.trans hpieces), hrest, if_neg hroot, ← hpieces, joinPieces_pieces]

/-- The directory of a file has the components of what the file was taken from. -/
theorem components_directory_join (h : IsName file) (dir : List Char) :
    components (directory (join dir file)) = components dir := by
  by_cases hne : dir = []
  · rw [hne, join_nil, directory_of_no_slash h.slash]
  · have hname : names [file] = [.name file] := by simp [names, h.idle]
    rw [components_directory, components_join h.isAbsolute_eq, if_neg hne, h.pieces_eq, hname,
      List.dropLast_concat]

end Stencil.Include
