import Stencil.Include.Engine

/-!
# Chains of resolvers

The resolvers of an engine as they were handed over to it, each with the questions that have been put to it
since.  This says all about what they are now, however the answers of a resolver depend on what it has been
asked before.

* `Post` : a resolver with its questions; `Post.answer` is what it has for the next one.
* `Consults` : a question is put to resolvers in order.  Everybody before the winner is asked once and has no
  text, the winner is asked once, and nobody after the winner is asked.
* `Chain` : the resolvers of an engine; `Chain.resolves` says that the engine consults them.
-/

namespace Stencil

namespace Include

/-! ### Resolvers with their questions -/

/-- A resolver and the questions that have been put to it. -/
structure Post where
  /-- The resolver as it was handed over. -/
  resolver : Resolver
  /-- The questions, in order. -/
  asked : List Ask := []

namespace Post

/-- The resolver as it is after its questions. -/
def now (disk : Disk) (p : Post) : Resolver := p.asked.foldl (fun r a => (r.ask disk a).2.1) p.resolver

/-- The text that a resolver has for the next question; an empty one does not count. -/
def answer (disk : Disk) (a : Ask) (p : Post) : Option String :=
  ((p.now disk).ask disk a).1.filter (!·.isEmpty)

/-- One more question is put to a resolver. -/
def ask (a : Ask) (p : Post) : Post := { p with asked := p.asked ++ [a] }

theorem now_ask (disk : Disk) (a : Ask) (p : Post) :
    (p.ask a).now disk = ((p.now disk).ask disk a).2.1 := by
  rw [now, ask, List.foldl_append]
  rfl

end Post

/-! ### One question -/

/-- A question is put to resolvers in order until one has a text. -/
inductive Consults (disk : Disk) (a : Ask) : List Post → Option String → List Post → Prop
  /-- Nobody has a text. -/
  | nobody {posts : List Post} (hmiss : ∀ p ∈ posts, p.answer disk a = none) :
      Consults disk a posts none (posts.map (Post.ask a))
  /-- Those before the winner have none, and those after it are left alone. -/
  | winner {before after : List Post} {p : Post} {text : String}
      (hmiss : ∀ q ∈ before, q.answer disk a = none) (hwin : p.answer disk a = some text) :
      Consults disk a (before ++ p :: after) (some text) (before.map (Post.ask a) ++ p.ask a :: after)

namespace Consults

variable {disk : Disk} {a : Ask} {posts posts' others others' : List Post} {p : Post}
  {found : Option String} {text : String}

/-- The first resolver has no text. -/
theorem cons (hp : p.answer disk a = none) (h : Consults disk a posts found posts') :
    Consults disk a (p :: posts) found (p.ask a :: posts') := by
  cases h with
  | nobody hmiss => exact .nobody (List.forall_mem_cons.2 ⟨hp, hmiss⟩)
  | winner hmiss hwin => exact .winner (List.forall_mem_cons.2 ⟨hp, hmiss⟩) hwin

/-- A text is found, whoever else there is. -/
theorem append_of_some (h : Consults disk a posts (some text) posts') (others : List Post) :
    Consults disk a (posts ++ others) (some text) (posts' ++ others) := by
  cases h with
  | winner hmiss hwin =>
    simp only [List.append_assoc, List.cons_append]
    exact .winner hmiss hwin

/-- Others are asked after those who have no text. -/
theorem append_of_none (h : Consults disk a posts none posts') (h' : Consults disk a others found others') :
    Consults disk a (posts ++ others) found (posts' ++ others') := by
  cases h with
  | nobody hmiss =>
    induction posts with
    | nil => exact h'
    | cons p posts ih =>
      rw [List.forall_mem_cons] at hmiss
      exact cons hmiss.1 (ih hmiss.2)

/-- The first text wins. -/
theorem found_eq (h : Consults disk a posts found posts') : found = posts.findSome? (Post.answer disk a) := by
  cases h with
  | nobody hmiss => exact (List.findSome?_eq_none_iff.2 hmiss).symm
  | winner hmiss hwin =>
    rw [List.findSome?_append, List.findSome?_eq_none_iff.2 hmiss, Option.none_or,
      List.findSome?_cons_of_isSome (by rw [hwin]; rfl), hwin]

/-- Nobody comes or goes. -/
theorem map_resolver (h : Consults disk a posts found posts') :
    posts'.map Post.resolver = posts.map Post.resolver := by
  cases h with
  | nobody => simp [Function.comp_def, Post.ask]
  | winner => simp [Function.comp_def, Post.ask]

theorem length_eq (h : Consults disk a posts found posts') : posts'.length = posts.length := by
  simpa using congrArg List.length h.map_resolver

end Consults

/-- Whoever consults resolvers in order finds what the first of them has to say. -/
theorem consults_askInOrder (disk : Disk) (a : Ask) (posts : List Post) :
    ∃ posts', Consults disk a posts (Engine.askInOrder disk a (posts.map (Post.now disk))).1 posts' ∧
      (Engine.askInOrder disk a (posts.map (Post.now disk))).2.1 = posts'.map (Post.now disk) := by
  induction posts with
  | nil => exact ⟨[], .nobody (by simp), rfl⟩
  | cons p posts ih =>
    rw [List.map_cons, Engine.askInOrder]
    cases hp : p.answer disk a with
    | some text =>
      have hanswer : ((p.now disk).ask disk a).1.filter (!·.isEmpty) = some text := hp
      simp only [hanswer]
      have hwin : Consults disk a ([] ++ p :: posts) (some text) ([] ++ p.ask a :: posts) :=
        .winner (by simp) hp
      exact ⟨p.ask a :: posts, hwin, by simp [Post.now_ask]⟩
    | none =>
      obtain ⟨posts', hconsults, hnow⟩ := ih
      have hanswer : ((p.now disk).ask disk a).1.filter (!·.isEmpty) = none := hp
      simp only [hanswer]
      exact ⟨p.ask a :: posts', hconsults.cons hp, by simp [Post.now_ask, hnow]⟩

/-! ### Engines -/

/-- The resolvers of an engine with their questions. -/
structure Chain where
  /-- The resolvers that have been added, in order. -/
  added : List Post := []
  /-- The resolver that is asked last. -/
  last : Option Post := some { resolver := .files }

namespace Chain

/-- The resolvers in the order in which they are asked. -/
def posts (c : Chain) : List Post := c.added ++ c.last.toList

/-- The engine with these resolvers as they are now. -/
def engine (disk : Disk) (c : Chain) : Engine :=
  ⟨disk, c.added.map (Post.now disk), c.last.map (Post.now disk)⟩

/-- A question is put to the resolvers of an engine. -/
structure Resolves (disk : Disk) (a : Ask) (c : Chain) (found : Option String) (c' : Chain) : Prop where
  /-- They are consulted in order. -/
  consults : Consults disk a c.posts found c'.posts
  /-- They stay where they are. -/
  added : c'.added.length = c.added.length

/-- The posts of a chain with at most one resolver that is asked last. -/
theorem toList_head? {posts : List Post} (h : posts.length ≤ 1) : posts.head?.toList = posts := by
  cases posts with
  | nil => rfl
  | cons p posts =>
    rw [List.length_cons] at h
    rw [List.length_eq_zero_iff.1 (by omega : posts.length = 0)]
    rfl

/-- **Resolving.**  An engine consults its resolvers, and they know all questions afterwards. -/
theorem resolves (disk : Disk) (a : Ask) (c : Chain) :
    ∃ c', c.Resolves disk a ((c.engine disk).resolve a).1 c' ∧
      ((c.engine disk).resolve a).2.1 = c'.engine disk := by
  obtain ⟨added, hadded, hnow⟩ := consults_askInOrder disk a c.added
  simp only [Engine.resolve, engine]
  cases hfound : (Engine.askInOrder disk a (c.added.map (Post.now disk))).1 with
  | some text =>
    rw [hfound] at hadded
    exact ⟨{ c with added := added }, ⟨hadded.append_of_some _, hadded.length_eq⟩, by simp [hnow]⟩
  | none =>
    rw [hfound] at hadded
    obtain ⟨last, hlast, hnow'⟩ := consults_askInOrder disk a c.last.toList
    have hone : last.head?.toList = last :=
      toList_head? (by rw [hlast.length_eq]; exact Option.length_toList_le)
    rw [Option.toList_map]
    refine ⟨⟨added, last.head?⟩, ⟨?_, hadded.length_eq⟩, by simp [hnow, hnow']⟩
    rw [posts, posts, hone]
    exact hadded.append_of_none hlast

end Chain

end Include

end Stencil
