import Stencil.Command

/-!
# Command lines

Every request that is read off a command line is proper: the paths in it are not empty.  In the other direction
there is a command line for every proper request, with the templates last, so that none of them can be taken for
an option.

* `Command.proper_of_read` : what is read is proper.
* `Command.read_arguments` : the command line of a request is read as the request.
-/

namespace Stencil.Command

namespace Request

/-- The paths of a request are not empty. -/
structure Proper (r : Request) : Prop where
  /-- The file with the data has a name. -/
  data : r.data ≠ some ""
  /-- So has every template. -/
  files : "" ∉ r.files

/-- A command line that asks for a request. -/
def arguments (r : Request) : List String :=
  (if r.verbose then ["--verbose"] else []) ++ (if r.render then ["--render"] else []) ++
    r.data.toList.map ("--data=" ++ ·) ++ "--" :: r.files.reverse

/-- The same request for one template. -/
def only (r : Request) (path : String) : Request := { r with files := [path] }

variable {r r' : Request} {path : String}

theorem Proper.only (h : r.Proper) (hpath : path ∈ r.templates) : (r.only path).Proper := by
  refine ⟨h.data, ?_⟩
  simp only [Request.only, List.mem_singleton]
  rintro rfl
  rw [templates] at hpath
  split at hpath
  · exact absurd hpath (by decide)
  · exact h.files (List.mem_reverse.1 hpath)

@[simp] theorem templates_only (r : Request) (path : String) : (r.only path).templates = [path] := rfl

theorem Proper.setVerbose (h : r.Proper) (hset : r.setVerbose = some r') : r'.Proper := by
  rw [Request.setVerbose] at hset
  split at hset
  · cases hset
  · cases hset
    exact ⟨h.data, h.files⟩

theorem Proper.setRender (h : r.Proper) (hset : r.setRender = some r') : r'.Proper := by
  rw [Request.setRender] at hset
  split at hset
  · cases hset
  · cases hset
    exact ⟨h.data, h.files⟩

theorem Proper.setData (h : r.Proper) (hset : r.setData path = some r') : r'.Proper := by
  rw [Request.setData] at hset
  split at hset
  · cases hset
  next hno =>
    cases hset
    refine ⟨?_, h.files⟩
    rintro ⟨⟩
    exact hno (by simp)

theorem Proper.addFile (h : r.Proper) (hadd : r.addFile path = some r') : r'.Proper := by
  rw [Request.addFile] at hadd
  split at hadd
  · cases hadd
  next hne =>
    cases hadd
    refine ⟨h.data, fun hmem => ?_⟩
    rcases List.mem_cons.1 hmem with rfl | hmem
    · exact hne rfl
    · exact h.files hmem

theorem addFile_eq (h : path ≠ "") : r.addFile path = some { r with files := path :: r.files } := by
  rw [addFile, if_neg (by simpa using h)]

end Request

variable {r r' : Request} {args paths : List String}

/-! ### What is read is proper -/

theorem proper_of_addFiles (h : addFiles r paths = .request r') (hr : r.Proper) : r'.Proper := by
  induction paths generalizing r with
  | nil =>
    cases h
    exact hr
  | cons path paths ih =>
    rw [addFiles] at h
    split at h
    next hadd => exact ih h (hr.addFile hadd)
    next => cases h

theorem proper_of_letters {cs : List Char} (h : letters r cs = some (.request r')) (hr : r.Proper) :
    r'.Proper := by
  induction cs generalizing r with
  | nil =>
    cases h
    exact hr
  | cons c cs ih =>
    rw [letters.eq_def] at h
    split at h
    next heq => cases heq
    next => cases h
    next rest heq =>
      obtain ⟨rfl, rfl⟩ := List.cons.inj heq
      obtain ⟨r₁, hset, hrest⟩ := Option.bind_eq_some_iff.1 h
      exact ih hrest (hr.setVerbose hset)
    next => cases h

theorem proper_of_readFrom (h : readFrom r args = .request r') (hr : r.Proper) : r'.Proper := by
  -- the cases that go on are named; in the others nothing is asked for
  fun_induction readFrom r args with
  | case1 r =>
    cases h
    exact hr
  | case2 r rest => exact proper_of_addFiles h hr
  | case4 r rest r₁ hset ih => exact ih h (hr.setVerbose hset)
  | case6 r rest r₁ hset ih => exact ih h (hr.setRender hset)
  | case10 r path rest _ r₁ hset ih => exact ih h (hr.setData hset)
  | case12 r arg rest _ _ _ _ _ _ _ r₁ hset ih => exact ih h (hr.setData hset)
  | case15 r arg rest _ _ _ _ _ _ _ _ _ r₁ hset ih => exact ih h (proper_of_letters hset hr)
  | case16 r arg rest _ _ _ _ _ _ _ _ _ meaning hne => exact (hne r' h).elim
  | case18 r arg rest _ _ _ _ _ _ _ _ _ r₁ hadd ih => exact ih h (hr.addFile hadd)
  | _ => cases h

/-- **Reading.**  Every request that is read is proper. -/
theorem proper_of_read (h : read args = .request r) : r.Proper :=
  proper_of_readFrom h ⟨by simp, by simp⟩

/-! ### Command lines of requests -/

theorem addFiles_eq (h : "" ∉ paths) :
    addFiles r paths = .request { r with files := paths.reverse ++ r.files } := by
  induction paths generalizing r with
  | nil => rfl
  | cons path paths ih =>
    rw [List.mem_cons, not_or] at h
    rw [addFiles, Request.addFile_eq (Ne.symm h.1)]
    dsimp only
    rw [ih h.2, List.reverse_cons, List.append_assoc, List.singleton_append]

/-- The words that stand for themselves are not options with a value attached. -/
theorem data_ne_word (path : String) :
    ∀ word ∈ ["--", "--help", "--verbose", "--render", "--data"], "--data=" ++ path ≠ word := by
  have hwords : ∀ word ∈ ["--", "--help", "--verbose", "--render", "--data"],
      ¬ "--data=".toList <+: word.toList := by decide
  rintro word hword rfl
  refine hwords _ hword ?_
  rw [String.toList_append]
  exact List.prefix_append _ _

/-- An option with its value attached is read as the option and the value. -/
theorem readFrom_data {path : String} (hset : r.setData path = some r') (rest : List String) :
    readFrom r (("--data=" ++ path) :: rest) = readFrom r' rest := by
  have hword {word : String} (hmem : word ∈ ["--", "--help", "--verbose", "--render", "--data"]) :
      "--data=" ++ path ≠ word := data_ne_word path word hmem
  have hvalue : (("--data=" ++ path).drop 7).toString = path := by
    apply String.toList_injective
    simp
  rw [readFrom, if_pos (by simp), hvalue, hset]
  -- what is left is that the option is none of the words
  all_goals
    intros
    refine hword ?_ ‹_›
    simp

/-- **Command lines.**  The command line of a proper request is read as the request. -/
theorem read_arguments (h : r.Proper) : read r.arguments = .request r := by
  obtain ⟨verbose, render, data, files⟩ := r
  have hfiles (r : Request) : readFrom r ("--" :: files.reverse) = .request { r with files := files ++ r.files } := by
    rw [readFrom, addFiles_eq (mt List.mem_reverse.1 h.files), List.reverse_reverse]
  have hdata (r : Request) (hr : r.data = none) :
      readFrom r (data.toList.map ("--data=" ++ ·) ++ "--" :: files.reverse) =
        .request { r with data := data, files := files ++ r.files } := by
    cases data with
    | none =>
      rw [Option.toList_none, List.map_nil, List.nil_append, hfiles, ← hr]
    | some path =>
      have hset : r.setData path = some { r with data := some path } := by
        have hpath : path ≠ "" := fun h' => h.data (congrArg some h')
        rw [Request.setData, if_neg (by simp [hr, hpath])]
      rw [Option.toList_some, List.map_singleton, List.singleton_append, readFrom_data hset]
      exact hfiles _
  -- the options that stand for themselves are read first, whichever of them there are
  rw [read, Request.arguments]
  cases verbose <;> cases render <;> simp [readFrom, Request.setVerbose, Request.setRender, hdata]

end Stencil.Command
