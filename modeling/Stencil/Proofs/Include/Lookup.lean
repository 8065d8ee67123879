import Stencil.Include.FileTree
import Stencil.Procedure
import Stencil.Proofs.Include.Paths
import Stencil.Proofs.Template.Splices

/-!
# Where a file is looked up

An include tag may name a file next to the template that holds it, or one below the working directory.  The
resolver that reads files has an answer as soon as one of its candidates can be read; the engine asks nobody
after it, so an empty file hides the candidates behind it.

* `lookups` : the components of the candidates, told from those of the name and of the origin.
* `Resolver.ask_files` : the text of the first candidate that can be read.
* `FileTree.text?_of_skips` : idle pieces on the way to a file can be left out.
* `Engine.OnlyFiles.resolve_beside` : a file next to a template comes before one below the working directory.
* `Engine.OnlyFiles.splices` : include tags get the text that the engine finds.
* `Engine.resolve_files` : where an engine looks that has nothing but files.
-/

namespace Stencil

namespace Include

/-- The text at a path, if it can be read. -/
def Disk.text? (disk : Disk) (path : List Char) : Option String := (disk.read (String.ofList path)).toOption

variable {disk : Disk} {a : Ask} {path name dir file : List Char}

/-! ### Candidates -/

/-- The components of the paths at which a file is looked up, from those of its name and of the origin. -/
def lookups (name : List Char) (origin : Option (List Char)) : List (List Component) :=
  match origin with
  | none => [components name]
  | some origin =>
    if (components name).head? = some .root then [components name]
    else if (components origin).dropLast = [] then [components name, components name]
    else [(components origin).dropLast ++ names (pieces name), components name]

theorem components_eq_nil : components path = [] ↔ path = [] := by
  obtain ⟨first, rest, h⟩ := List.exists_cons_of_ne_nil (pieces_ne_nil path)
  constructor
  · intro hnil
    by_contra hne
    rw [components_eq h hne] at hnil
    cases hnil
  · rintro rfl
    rfl

/-- The candidates are where a file is looked up. -/
theorem components_candidates (a : Ask) :
    (Resolver.candidates a).map components = lookups a.name.toList (a.origin.map String.toList) := by
  obtain ⟨name, origin⟩ := a
  cases origin with
  | none => rfl
  | some origin =>
    simp only [Resolver.candidates, lookups, Option.map_some]
    cases habsolute : isAbsolute name.toList with
    | true =>
      have hroot := habsolute
      rw [isAbsolute_eq, beq_iff_eq] at hroot
      rw [if_pos rfl, if_pos hroot]
      rfl
    | false =>
      have hroot := habsolute
      rw [isAbsolute_eq, beq_eq_false_iff_ne] at hroot
      rw [if_neg Bool.false_ne_true, if_neg hroot, List.map_cons, List.map_singleton,
        components_join habsolute]
      simp only [← components_eq_nil, components_directory]
      split <;> rfl

/-- The name as it is given comes last. -/
theorem getLast?_candidates (a : Ask) : (Resolver.candidates a).getLast? = some a.name.toList := by
  unfold Resolver.candidates
  split
  · dsimp only
    split <;> rfl
  · rfl

/-! ### The resolver that reads files -/

theorem Resolver.firstReadable_eq (paths : List (List Char)) :
    (firstReadable disk paths).1 = paths.findSome? disk.text? := by
  induction paths with
  | nil => rfl
  | cons path paths ih =>
    rw [firstReadable, List.findSome?_cons, Disk.text?]
    cases disk.read (String.ofList path) with
    | ok text => rfl
    | error fault => exact ih

/-- **Files.**  The text of the first candidate that can be read. -/
theorem Resolver.ask_files (disk : Disk) (a : Ask) :
    Resolver.files.ask disk a =
      ((candidates a).findSome? disk.text?, .files, (firstReadable disk (candidates a)).2) := by
  rw [ask, ← firstReadable_eq]

/-! ### Files in a tree -/

/-- Follows one piece of a path. -/
def Node.enter (trail : List Node) (piece : List Char) : Except ReadFault (List Node) :=
  match trail with
  | [] => .error .notFound
  | here :: above =>
    if !here.isDir then .error .notDirectory
    else if isIdle piece then .ok trail
    else if piece = ['.', '.'] then .ok (if above.isEmpty then trail else above)
    else if maxName < Text.byteSize piece then .error .nameTooLong
    else
      match here.child? (String.ofList piece) with
      | some node => .ok (node :: trail)
      | none => .error .notFound

theorem Node.follow_cons (trail : List Node) (piece : List Char) (rest : List (List Char)) :
    follow trail (piece :: rest) = (enter trail piece).bind (follow · rest) := by
  cases trail with
  | nil => rfl
  | cons here above =>
    rw [follow, enter]
    cases hchild : here.child? (String.ofList piece) with
    | none => split_ifs <;> rfl
    | some node => split_ifs <;> rfl

/-- An idle piece leads nowhere. -/
theorem Node.enter_idle {trail trail' : List Node} {piece : List Char} (h : isIdle piece = true)
    (htrail : enter trail piece = .ok trail') : trail' = trail := by
  cases trail with
  | nil => cases htrail
  | cons here above =>
    rw [enter] at htrail
    split at htrail
    · cases htrail
    · cases htrail
      rfl

/-- Some pieces with idle ones among them left out. -/
inductive Skips : List (List Char) → List (List Char) → Prop
  | nil : Skips [] []
  | drop {piece : List Char} {parts parts' : List (List Char)} (h : isIdle piece = true)
      (hrest : Skips parts parts') : Skips parts (piece :: parts')
  | keep {parts parts' : List (List Char)} (piece : List Char) (hrest : Skips parts parts') :
      Skips (piece :: parts) (piece :: parts')

namespace Skips

variable {parts parts' idle : List (List Char)}

theorem refl (parts : List (List Char)) : Skips parts parts := by
  induction parts with
  | nil => exact .nil
  | cons piece parts ih => exact .keep piece ih

theorem of_idle (h : ∀ piece ∈ idle, isIdle piece = true) (front back : List (List Char)) :
    Skips (front ++ back) (front ++ idle ++ back) := by
  induction front with
  | nil =>
    rw [List.nil_append, List.nil_append]
    induction idle with
    | nil => exact refl back
    | cons piece idle ih =>
      rw [List.forall_mem_cons] at h
      exact .drop h.1 (ih h.2)
  | cons piece front ih => exact .keep piece ih

theorem sublist (h : Skips parts parts') : parts.Sublist parts' := by
  induction h with
  | nil => exact .slnil
  | drop _ _ ih => exact .cons _ ih
  | keep _ _ ih => exact .cons_cons _ ih

/-- An idle piece on a way that leads somewhere only says that a directory has been reached. -/
theorem follow {trail : List Node} {node : Node} (h : Skips parts parts')
    (hnode : Node.follow trail parts' = .ok node) : Node.follow trail parts = .ok node := by
  -- on what has been left out; the trail is the same on both ways
  induction h generalizing trail with
  | nil => exact hnode
  | @drop piece _ _ hidle _ ih =>
    rw [Node.follow_cons] at hnode
    cases htrail : Node.enter trail piece with
    | error fault =>
      rw [htrail] at hnode
      cases hnode
    | ok trail' =>
      rw [htrail, Node.enter_idle hidle htrail] at hnode
      exact ih hnode
  | keep piece _ ih =>
    rw [Node.follow_cons] at hnode ⊢
    cases htrail : Node.enter trail piece with
    | error fault =>
      rw [htrail] at hnode
      cases hnode
    | ok trail' =>
      rw [htrail] at hnode
      exact ih hnode

end Skips

theorem joinPieces_sublist {parts parts' : List (List Char)} (h : parts.Sublist parts') :
    (joinPieces parts).Sublist (joinPieces parts') := by
  induction h with
  | slnil => exact .slnil
  | @cons parts parts' piece h ih =>
    by_cases hnil : parts' = []
    · rw [hnil] at h
      rw [List.sublist_nil.1 h]
      exact List.nil_sublist _
    · rw [joinPieces_cons hnil]
      exact ih.trans ((List.sublist_cons_self _ _).trans (List.sublist_append_right _ _))
  | @cons_cons parts parts' piece h ih =>
    by_cases hnil : parts = []
    · by_cases hnil' : parts' = []
      · rw [hnil, hnil']
      · rw [hnil, joinPieces_cons hnil', joinPieces, List.intercalate_singleton]
        exact List.sublist_append_left _ _
    · have hnil' : parts' ≠ [] := by
        rintro rfl
        exact hnil (List.sublist_nil.1 h)
      rw [joinPieces_cons hnil, joinPieces_cons hnil']
      exact (List.Sublist.refl piece).append (ih.cons_cons '/')

theorem byteSize_le_of_sublist {s s' : List Char} (h : s.Sublist s') : Text.byteSize s ≤ Text.byteSize s' := by
  induction h with
  | slnil => exact Nat.le_refl _
  | cons c _ ih => exact Nat.le_trans ih (by simp [Text.byteSize])
  | cons_cons c _ ih => simpa [Text.byteSize] using ih

namespace FileTree

/-- What a path leads to, idle pieces left out. -/
theorem find_of_skips {path path' : List Char} {node : Node} (t : FileTree)
    (h : Skips (pieces path) (pieces path')) (hne : path ≠ []) (habsolute : isAbsolute path = isAbsolute path')
    (hnode : t.find path' = .ok node) :
    t.find path = .ok node := by
  have hsublist : path.Sublist path' := by
    rw [← joinPieces_pieces path, ← joinPieces_pieces path']
    exact joinPieces_sublist h.sublist
  unfold find at hnode ⊢
  split at hnode
  · cases hnode
  rename_i hnul
  split at hnode
  · cases hnode
  split at hnode
  · cases hnode
  rename_i hsize
  have hnul' : ¬path.contains '\x00' = true := by
    simp only [List.contains_iff_mem] at hnul ⊢
    exact fun hmem => hnul (hsublist.subset hmem)
  have hsize' : ¬maxPath < Text.byteSize path := by
    have := byteSize_le_of_sublist hsublist
    omega
  rw [if_neg hnul', if_neg (by simpa using hne), if_neg hsize', habsolute]
  split at hnode
  · rename_i hroot
    rw [if_pos hroot]
    exact h.follow hnode
  · rename_i hroot
    rw [if_neg hroot]
    exact h.follow hnode

/-- The text at a path is what the node there holds. -/
theorem text?_disk (t : FileTree) (path : List Char) :
    t.disk.text? path = match t.find path with
      | .ok (.file content) => (Text.decode? content).map String.ofList
      | _ => none := by
  rw [Disk.text?, show t.disk.read = t.read from rfl, read, String.toList_ofList]
  cases t.find path with
  | error fault => rfl
  | ok node =>
    cases node with
    | dir entries => rfl
    | file content =>
      dsimp only
      cases Text.decode? content <;> rfl

/-- What can be read behind idle pieces can be read without them. -/
theorem text?_of_skips {path path' : List Char} {text : String} (t : FileTree)
    (h : Skips (pieces path) (pieces path')) (hne : path ≠ []) (habsolute : isAbsolute path = isAbsolute path')
    (htext : t.disk.text? path' = some text) : t.disk.text? path = some text := by
  rw [text?_disk] at htext ⊢
  cases hnode : t.find path' with
  | error fault =>
    rw [hnode] at htext
    cases htext
  | ok node =>
    rw [hnode] at htext
    rw [t.find_of_skips h hne habsolute hnode]
    exact htext

end FileTree

/-! ### A file next to another one -/

/-- Paths with the same components lead to the same text. -/
def Disk.ByComponents (disk : Disk) : Prop :=
  ∀ path path' : List Char, components path = components path' → disk.text? path = disk.text? path'

/-- What is in a directory can be read from the directory of any file there.  The two may be spelled differently
if the directory ends in idle pieces; this makes no difference in a tree. -/
theorem text?_beside {text : String} (hfile : IsName file) (hname : isAbsolute name = false)
    (hdir : Tidy dir ∨ (∃ t : FileTree, disk = t.disk) ∨ disk.ByComponents)
    (htext : disk.text? (join dir name) = some text) :
    disk.text? (join (directory (join dir file)) name) = some text := by
  have hcomponents : components (join (directory (join dir file)) name) = components (join dir name) := by
    rw [components_join hname, components_join hname, components_directory_join hfile]
    simp only [← components_eq_nil, components_directory_join hfile]
  rcases hdir with hdir | ⟨t, rfl⟩ | hdir
  · rwa [directory_join hfile hdir]
  · obtain ⟨idle, hidle, hbase⟩ := exists_base_directory_join hfile dir
    refine t.text?_of_skips ?_ ?_ ?_ htext
    · rw [pieces_join hname, pieces_join hname, hbase]
      exact .of_idle hidle _ _
    · -- the empty path leads nowhere
      intro hnil
      rw [← components_eq_nil, hcomponents, components_eq_nil] at hnil
      rw [hnil, FileTree.text?_disk] at htext
      cases htext
    · rw [isAbsolute_eq, isAbsolute_eq, hcomponents]
  · exact (hdir _ _ hcomponents).trans htext

end Include

open Include

namespace Engine

/-- An engine that has nothing but files. -/
def OnlyFiles (e : Engine) : Prop := e.added ++ e.fallback.toList = [.files]

variable {e : Engine} {a : Ask} {disk : Disk}

theorem OnlyFiles.cases (h : e.OnlyFiles) : e = ⟨e.disk, [], some .files⟩ ∨ e = ⟨e.disk, [.files], none⟩ := by
  obtain ⟨disk, added, fallback⟩ := e
  unfold OnlyFiles at h
  dsimp only at h
  rcases List.append_eq_singleton_iff.1 h with ⟨rfl, hlast⟩ | ⟨rfl, hlast⟩
  · rw [Option.toList_eq_singleton_iff.1 hlast]
    exact .inl rfl
  · rw [Option.toList_eq_nil_iff.1 hlast]
    exact .inr rfl

/-- What the resolver of files has to say, if it is all there is. -/
theorem askInOrder_files (disk : Disk) (a : Ask) :
    askInOrder disk a [.files] = (((Resolver.candidates a).findSome? disk.text?).filter (!·.isEmpty),
      [.files], (Resolver.firstReadable disk (Resolver.candidates a)).2) := by
  rw [askInOrder, Resolver.ask_files]
  dsimp only
  cases hfound : ((Resolver.candidates a).findSome? disk.text?).filter (!·.isEmpty) with
  | some text => rfl
  | none => simp only [askInOrder, List.append_nil]

/-- An engine that has nothing but files finds what they hold, and stays as it is. -/
theorem OnlyFiles.resolve_eq (h : e.OnlyFiles) (a : Ask) :
    (e.resolve a).1 = ((Resolver.candidates a).findSome? e.disk.text?).filter (!·.isEmpty) ∧
      (e.resolve a).2.1 = e := by
  rcases h.cases with he | he
  · rw [he]
    simp [resolve, askInOrder, askInOrder_files]
  · rw [he]
    simp only [resolve, askInOrder_files]
    split
    · rename_i htext
      exact ⟨htext.symm, rfl⟩
    · rename_i htext
      exact ⟨htext.symm, rfl⟩

theorem OnlyFiles.askAll_eq (h : e.OnlyFiles) (as : List Ask) : (e.askAll as).2 = e := by
  induction as with
  | nil => rfl
  | cons a as ih =>
    rw [askAll, (h.resolve_eq a).2]
    exact ih

open Template in
/-- An include tag of a template gets the text that its engine finds, if the engine has nothing but files. -/
theorem OnlyFiles.splices (h : e.OnlyFiles) {origin : Option String} {source name text : String}
    (htext : (e.resolve ⟨name, origin⟩).1 = some text) {k : Nat} {s : Scan} {t : OpenTag}
    (hs : Scan.Takes k (Scan.start e origin source) s) (ht : s.closes? = some t) (hname : t.path = name) :
    ∃ s₁, s.turn = .more s₁ ∧ s₁.behind = (s.ahead.take 2).reverse ++ s.behind ∧
      s₁.ahead = text.toList ++ s.ahead.drop 2 := by
  have hstart := Scan.sound_start e origin source
  obtain ⟨texts, hspliced⟩ := hs.spliced hstart
  have hengine : s.engine = e := (congrArg Prod.snd hspliced.asked).symm.trans (h.askAll_eq _)
  have hresolve : (s.engine.resolve ⟨t.path, s.origin⟩).1 = some text := by
    rw [hengine, hspliced.origin, hname]
    exact htext
  cases Scan.turn_serves (hstart.takes hs) with
  | nothing hc =>
    rw [hc] at ht
    cases ht
  | found t' hc text' hfound s₁ hturn hbehind hahead =>
    obtain rfl : t = t' := Option.some.inj (ht.symm.trans hc)
    obtain rfl : text = text' := Option.some.inj (hresolve.symm.trans hfound)
    exact ⟨s₁, hturn, hbehind, hahead⟩
  | missed t' hc hmissed =>
    obtain rfl : t = t' := Option.some.inj (ht.symm.trans hc)
    rw [hresolve] at hmissed
    cases hmissed

/-- An engine that has nothing but files misses if it can read no candidate, or if the first one that it can
read is empty. -/
theorem OnlyFiles.resolve_eq_none_iff (h : e.OnlyFiles) (a : Ask) :
    (e.resolve a).1 = none ↔ (∀ path ∈ Resolver.candidates a, e.disk.text? path = none) ∨
      (Resolver.candidates a).findSome? e.disk.text? = some "" := by
  rw [(h.resolve_eq a).1, ← List.findSome?_eq_none_iff]
  cases (Resolver.candidates a).findSome? e.disk.text? with
  | none => simp
  | some text => simp [Option.filter_some]

/-- A file next to a template comes before one below the working directory. -/
theorem OnlyFiles.resolve_beside (h : e.OnlyFiles) {dir file : List Char} {name text : String}
    (hfile : IsName file) (hname : isAbsolute name.toList = false)
    (hdir : Tidy dir ∨ (∃ t : FileTree, e.disk = t.disk) ∨ e.disk.ByComponents)
    (htext : e.disk.text? (join dir name.toList) = some text) (hne : text ≠ "") :
    (e.resolve ⟨name, some (String.ofList (join dir file))⟩).1 = some text := by
  have hbeside := text?_beside hfile hname hdir htext
  rw [(h.resolve_eq _).1, Resolver.candidates]
  simp only [String.toList_ofList, hname, Bool.false_eq_true, if_false]
  rw [List.findSome?_cons, hbeside]
  simp [Option.filter_some, hne]

open Template in
/-- **Where files are looked up.**  The candidates for a name have the components of the directory of the origin
and then the names of the name, unless it is absolute or there is no origin, and the name as it is given comes
last.  The text of the first one that can be read is the answer, and an empty one is a miss; in a tree, what
leads nowhere, to a directory or to bytes that are no text cannot be read.  So a template in a directory gets
what it includes from there, whatever has the same name elsewhere. -/
theorem resolve_files (h : e.OnlyFiles) :
    (∀ a, (Resolver.candidates a).map components = lookups a.name.toList (a.origin.map String.toList) ∧
      (Resolver.candidates a).getLast? = some a.name.toList ∧
      (Resolver.files.ask e.disk a).1 = (Resolver.candidates a).findSome? e.disk.text? ∧
      (e.resolve a).1 = ((Resolver.files.ask e.disk a).1).filter (!·.isEmpty) ∧
      ((e.resolve a).1 = none ↔ (∀ path ∈ Resolver.candidates a, e.disk.text? path = none) ∨
        (Resolver.candidates a).findSome? e.disk.text? = some "")) ∧
    (∀ t : FileTree, e.disk = t.disk → ∀ path, e.disk.text? path = match t.find path with
      | .ok (.file content) => (Text.decode? content).map String.ofList
      | _ => none) ∧
    ∀ (dir file : List Char) (name source text : String), IsName file → isAbsolute name.toList = false →
      Tidy dir ∨ (∃ t : FileTree, e.disk = t.disk) ∨ e.disk.ByComponents →
      e.disk.text? (join dir file) = some source →
      e.disk.text? (join dir name.toList) = some text → text ≠ "" →
      (e.resolve ⟨name, some (String.ofList (join dir file))⟩).1 = some text ∧
      ∀ turns, e.compileFile turns (String.ofList (join dir file)) =
          e.compile turns (some (String.ofList (join dir file))) source ∧
        ∀ k s t, Scan.Takes k (Scan.start e (some (String.ofList (join dir file))) source) s →
          s.closes? = some t → t.path = name →
          ∃ s₁, s.turn = .more s₁ ∧ s₁.behind = (s.ahead.take 2).reverse ++ s.behind ∧
            s₁.ahead = text.toList ++ s.ahead.drop 2 := by
  refine ⟨fun a => ⟨components_candidates a, getLast?_candidates a, ?_, ?_, h.resolve_eq_none_iff a⟩, ?_, ?_⟩
  · rw [Resolver.ask_files]
  · rw [Resolver.ask_files]
    exact (h.resolve_eq a).1
  · intro t ht path
    rw [ht]
    exact t.text?_disk path
  · intro dir file name source text hfile hname hdir hsource htext hne
    have hresolve := h.resolve_beside hfile hname hdir htext hne
    refine ⟨hresolve, fun turns => ⟨?_, fun k s t hs ht hpath => h.splices hresolve hs ht hpath⟩⟩
    rw [compileFile]
    cases hread : e.disk.read (String.ofList (join dir file)) with
    | error fault =>
      rw [Disk.text?, hread] at hsource
      cases hsource
    | ok source' =>
      rw [Disk.text?, hread] at hsource
      cases hsource
      rfl

/-- A template in a directory includes a file there that has the name of another file. -/
def twoNames : FileTree :=
  .ofFiles ["home"] [("t/page", some (Text.bytesOf "\x7b% include n %\x7d")), ("t/n", some (Text.bytesOf "near")),
    ("n", some (Text.bytesOf "far"))]

open Template in
theorem resolve_files_twoNames :
    ((new twoNames.disk).resolve ⟨"n", some "t//page"⟩).1 = some "near" ∧
      ∃ s s₁, Scan.Takes 12 (Scan.start (new twoNames.disk) (some "t//page") "\x7b% include n %\x7d") s ∧
        s.turn = .more s₁ ∧ s₁.ahead = "near".toList := by
  have hpage : twoNames.disk.text? (join "t//".toList "page".toList) = some "\x7b% include n %\x7d" := by
    decide +kernel
  have hnear : twoNames.disk.text? (join "t//".toList "n".toList) = some "near" := by decide +kernel
  obtain ⟨hresolve, hcompile⟩ := (resolve_files (e := new twoNames.disk) rfl).2.2 "t//".toList "page".toList
    "n" _ _ ⟨by decide, by decide⟩ (by decide) (.inr (.inl ⟨twoNames, rfl⟩)) hpage hnear (by decide)
  refine ⟨hresolve, ?_⟩
  -- the tag is closed after twelve turns
  have hscan : ((Scan.start (new twoNames.disk) (some "t//page") "\x7b% include n %\x7d").after 12).map
      (fun s => (s.closes?.map OpenTag.path, s.ahead)) = some (some "n", ['%', '\x7d']) := by decide +kernel
  obtain ⟨s, hs, hstate⟩ := Option.map_eq_some_iff.1 hscan
  obtain ⟨hcloses, hahead⟩ := Prod.mk.inj hstate
  obtain ⟨t, ht, hpath⟩ := Option.map_eq_some_iff.1 hcloses
  have htakes := Scan.takes_of_after hs
  obtain ⟨s₁, hturn, -, hahead₁⟩ := (hcompile 40).2 12 s t htakes ht hpath
  rw [hahead] at hahead₁
  exact ⟨s, s₁, htakes, hturn, hahead₁⟩

end Engine

end Stencil
