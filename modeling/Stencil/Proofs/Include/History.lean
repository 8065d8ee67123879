import Stencil.Procedure
import Stencil.Proofs.Include.Chain
import Stencil.Proofs.Template.Splices

/-!
# The history of an engine

What an engine answers depends on how often each of its resolvers has been asked, and that depends on who
had a text for the questions before.  So a chain of resolvers is followed through everything that an engine
is told to do (`History`): a resolver joins or leaves, a question is put to the chain, or a template is
compiled, which puts the question of each of its include tags to the chain, in order, and does nothing else
to it.

* `Engine.Order`, `Engine.obey` : what an engine is told, and the engine afterwards.
* `Chain.Obeys` : one order, as the chain sees it.
* `Engine.read_engine` : what compiling a template does to an engine.
* `Engine.history_obeyAll` : an engine has the history that its orders say.
-/

namespace Stencil

open Include

namespace Template

/-- The questions of a template: one for each of its include tags, in order.  A template that the budget is
not enough for leaves none. -/
def questions (turns : Nat) (engine : Engine) (origin : Option String) (source : String) : List Ask :=
  match (Scan.start engine origin source).run turns with
  | some _ => ((Scan.start engine origin source).requests turns).map (·.ask origin)
  | none => []

namespace Scan

variable {s : Scan} {turns : Nat} {p : Progress}

/-- The engine of a turn is asked for the include tag that the turn closes. -/
theorem engine_turn (h : Sound s) :
    s.turn.scan.engine = (s.engine.askAll (s.request?.toList.map (·.ask s.origin))).2 ∧
      ∀ s₁, s.turn = .more s₁ → s₁.origin = s.origin := by
  cases turn_serves h with
  | nothing hc read hm hf =>
    rw [request?, hc]
    refine ⟨hm.engine, fun s₁ ht => ?_⟩
    rw [ht] at hm
    exact hm.origin
  | found t hc text hfound s₁ hturn hbehind hahead htags hengine horigin =>
    rw [request?, hc, hturn]
    exact ⟨hengine, fun s₂ ht => by cases ht; exact horigin⟩
  | missed t hc hmissed place s₁ hturn hengine =>
    rw [request?, hc, hturn]
    exact ⟨hengine, fun s₂ ht => by cases ht⟩

end Scan

end Template

namespace Engine

theorem askAll_append (e : Engine) (as bs : List Ask) :
    (e.askAll (as ++ bs)).2 = ((e.askAll as).2.askAll bs).2 := by
  induction as generalizing e with
  | nil => rfl
  | cons a as ih => exact ih _

end Engine

namespace Template

/-- The engine of a run is asked for the include tags that the run closes. -/
theorem Scan.engine_run {s : Scan} {turns : Nat} {p : Progress} (hs : Sound s)
    (h : s.run turns = some p) :
    p.scan.engine = (s.engine.askAll ((s.requests turns).map (·.ask s.origin))).2 := by
  induction turns generalizing s with
  | zero => cases h
  | succ turns ih =>
    obtain ⟨hengine, horigin⟩ := engine_turn hs
    rw [run] at h
    rw [requests, List.map_append, Engine.askAll_append, ← hengine]
    cases ht : s.turn with
    | more s₁ =>
      rw [ht] at h
      rw [← horigin s₁ ht]
      exact ih (hs.turn ht) h
    | done s₁ =>
      rw [ht] at h
      cases h
      rfl
    | fault f place s₁ =>
      rw [ht] at h
      cases h
      rfl

/-- **Reading.**  All that reading a template does to an engine is to put its questions. -/
theorem read_engine (turns : Nat) (engine : Engine) (origin : Option String) (source : String) :
    (read turns engine origin source).engine =
      (engine.askAll (questions turns engine origin source)).2 := by
  rw [read, questions]
  cases h : (Scan.start engine origin source).run turns with
  | none => rfl
  | some p =>
    have hengine := Scan.engine_run (Scan.sound_start engine origin source) h
    cases p with
    | more s => exact hengine
    | done s => exact hengine
    | fault f place s => exact hengine

end Template

namespace Engine

open Template (questions)

/-! ### Orders -/

/-- Something that an engine is told to do. -/
inductive Order where
  /-- To ask one more resolver. -/
  | add (r : Resolver)
  /-- To ask a resolver last, in place of the one before. -/
  | setDefault (r : Resolver)
  /-- To ask nobody after those who have been added. -/
  | clearDefault
  /-- To answer a question. -/
  | resolve (a : Ask)
  /-- To compile a template. -/
  | compile (turns : Nat) (origin : Option String) (source : String)
  /-- To compile the template in a file. -/
  | compileFile (turns : Nat) (path : String)

/-- An engine after an order. -/
def obey (e : Engine) : Order → Engine
  | .add r => e.addResolver r
  | .setDefault r => e.setDefault r
  | .clearDefault => e.clearDefault
  | .resolve a => (e.resolve a).2.1
  | .compile turns origin source => (e.compile turns origin source).engine
  | .compileFile turns path => (e.compileFile turns path).engine

/-- An engine after some orders. -/
def obeyAll (e : Engine) (orders : List Order) : Engine := orders.foldl obey e

/-- The resolver that an order adds. -/
def Order.added? : Order → Option Resolver
  | .add r => some r
  | _ => none

/-- The resolver that is asked last after an order, if it was `last` before. -/
def Order.default (last : Option Resolver) : Order → Option Resolver
  | .setDefault r => some r
  | .clearDefault => none
  | _ => last

/-- The resolvers that have been added, in order. -/
def addedBy (orders : List Order) : List Resolver := orders.filterMap Order.added?

/-- The latest default resolver, if it has not been cleared; at first it is the one that reads files. -/
def defaultAfter (orders : List Order) : Option Resolver := orders.foldl Order.default (some .files)

theorem obeyAll_concat (e : Engine) (orders : List Order) (order : Order) :
    e.obeyAll (orders ++ [order]) = (e.obeyAll orders).obey order := List.foldl_concat ..

theorem addedBy_concat (orders : List Order) (order : Order) :
    addedBy (orders ++ [order]) = addedBy orders ++ order.added?.toList := by
  rw [addedBy, List.filterMap_append]
  cases order <;> rfl

theorem defaultAfter_concat (orders : List Order) (order : Order) :
    defaultAfter (orders ++ [order]) = order.default (defaultAfter orders) := List.foldl_concat ..

theorem compile_engine (e : Engine) (turns : Nat) (origin : Option String) (source : String) :
    (e.compile turns origin source).engine = (e.askAll (questions turns e origin source)).2 := by
  rw [← Template.read_engine, compile]
  cases (Template.read turns e origin source).outcome with
  | error stop => rfl
  | ok instrs =>
    dsimp only
    split <;> rfl

/-- The questions of a file; one that cannot be read has none. -/
def fileQuestions (turns : Nat) (e : Engine) (path : String) : List Ask :=
  match e.disk.read path with
  | .ok source => questions turns e (some path) source
  | .error _ => []

theorem compileFile_engine (e : Engine) (turns : Nat) (path : String) :
    (e.compileFile turns path).engine = (e.askAll (fileQuestions turns e path)).2 := by
  rw [compileFile, fileQuestions]
  cases e.disk.read path with
  | ok source => exact compile_engine e turns (some path) source
  | error fault => rfl

end Engine

namespace Include

open Engine (Order)
open Template (questions)

namespace Chain

variable {disk : Disk} {c c' : Chain}

/-- Some questions are put one after the other. -/
inductive ResolvesAll (disk : Disk) : Chain → List Ask → Chain → Prop
  | nil (c : Chain) : ResolvesAll disk c [] c
  | cons {c c' c'' : Chain} {a : Ask} {as : List Ask} {found : Option String} :
      c.Resolves disk a found c' → ResolvesAll disk c' as c'' → ResolvesAll disk c (a :: as) c''

theorem resolvesAll (disk : Disk) (as : List Ask) (c : Chain) :
    ∃ c', ResolvesAll disk c as c' ∧ ((c.engine disk).askAll as).2 = c'.engine disk := by
  induction as generalizing c with
  | nil => exact ⟨c, .nil c, rfl⟩
  | cons a as ih =>
    obtain ⟨c₁, hfirst, hnow⟩ := c.resolves disk a
    obtain ⟨c₂, hrest, hnow'⟩ := ih c₁
    exact ⟨c₂, .cons hfirst hrest, by rw [Engine.askAll, hnow]; exact hnow'⟩

/-- What an order means for the resolvers of an engine. -/
inductive Obeys (disk : Disk) (c : Chain) : Order → Chain → Prop
  /-- A resolver comes after those already there; it has not been asked anything. -/
  | add (r : Resolver) : Obeys disk c (.add r) { c with added := c.added ++ [{ resolver := r }] }
  /-- Another resolver is asked last. -/
  | setDefault (r : Resolver) : Obeys disk c (.setDefault r) { c with last := some { resolver := r } }
  /-- Nobody is asked last. -/
  | clearDefault : Obeys disk c .clearDefault { c with last := none }
  /-- They are consulted. -/
  | resolve {a : Ask} {found : Option String} {c' : Chain} (h : c.Resolves disk a found c') :
      Obeys disk c (.resolve a) c'
  /-- They are consulted about each include tag of a template. -/
  | compile {turns : Nat} {origin : Option String} {source : String} {c' : Chain}
      (h : ResolvesAll disk c (questions turns (c.engine disk) origin source) c') :
      Obeys disk c (.compile turns origin source) c'
  /-- They are consulted about each include tag of a file. -/
  | compileFile {turns : Nat} {path : String} {c' : Chain}
      (h : ResolvesAll disk c (Engine.fileQuestions turns (c.engine disk) path) c') :
      Obeys disk c (.compileFile turns path) c'

/-- **Steps.**  An engine does what an order means for its resolvers. -/
theorem obeys (disk : Disk) (order : Order) (c : Chain) :
    ∃ c', c.Obeys disk order c' ∧ (c.engine disk).obey order = c'.engine disk := by
  cases order with
  | add r => exact ⟨_, .add r, by simp [Engine.obey, Engine.addResolver, engine, Post.now]⟩
  | setDefault r => exact ⟨_, .setDefault r, rfl⟩
  | clearDefault => exact ⟨_, .clearDefault, rfl⟩
  | resolve a =>
    obtain ⟨c', hresolves, hnow⟩ := c.resolves disk a
    exact ⟨c', .resolve hresolves, hnow⟩
  | compile turns origin source =>
    obtain ⟨c', hresolves, hnow⟩ := resolvesAll disk (questions turns (c.engine disk) origin source) c
    exact ⟨c', .compile hresolves, (Engine.compile_engine ..).trans hnow⟩
  | compileFile turns path =>
    obtain ⟨c', hresolves, hnow⟩ := resolvesAll disk (Engine.fileQuestions turns (c.engine disk) path) c
    exact ⟨c', .compileFile hresolves, (Engine.compileFile_engine ..).trans hnow⟩

/-! ### Who is there -/

/-- Some resolvers are those of a chain. -/
structure Seats (c : Chain) (added : List Resolver) (last : Option Resolver) : Prop where
  /-- Those that have been added. -/
  added : c.added.map Post.resolver = added
  /-- The one that is asked last. -/
  last : c.last.map Post.resolver = last

variable {added : List Resolver} {last : Option Resolver}

/-- Being asked does not change who is there. -/
theorem Seats.resolves {a : Ask} {found : Option String} (h : c.Seats added last)
    (hc : c.Resolves disk a found c') : c'.Seats added last := by
  have hall := hc.consults.map_resolver
  rw [posts, posts, List.map_append, List.map_append, ← Option.toList_map, ← Option.toList_map] at hall
  obtain ⟨hadded, hlast⟩ := List.append_inj hall (by simp [hc.added])
  have hlast' := congrArg List.head? hlast
  rw [Option.head?_toList, Option.head?_toList] at hlast'
  exact ⟨hadded.trans h.added, hlast'.trans h.last⟩

theorem Seats.resolvesAll {as : List Ask} (h : c.Seats added last) (hc : ResolvesAll disk c as c') :
    c'.Seats added last := by
  induction hc with
  | nil c => exact h
  | cons hfirst _ ih => exact ih (h.resolves hfirst)

/-- Only orders about resolvers change who is there. -/
theorem Seats.obeys {order : Order} (h : c.Seats added last) (hc : c.Obeys disk order c') :
    c'.Seats (added ++ order.added?.toList) (order.default last) := by
  have hsame (h : c'.Seats added last) : c'.Seats (added ++ []) last := by rwa [List.append_nil]
  cases hc with
  | add r => exact ⟨by simp [← h.added, Order.added?], h.last⟩
  | setDefault r => exact ⟨by simpa [Order.added?] using h.added, rfl⟩
  | clearDefault => exact ⟨by simpa [Order.added?] using h.added, rfl⟩
  | resolve hc => exact hsame (h.resolves hc)
  | compile hc => exact hsame (h.resolvesAll hc)
  | compileFile hc => exact hsame (h.resolvesAll hc)

end Chain

/-! ### Histories -/

/-- What has become of the resolvers of a new engine after some orders. -/
inductive History (disk : Disk) : List Order → Chain → Prop
  /-- A new engine reads files. -/
  | new : History disk [] {}
  /-- One more order. -/
  | obey {orders : List Order} {order : Order} {c c' : Chain} (h : History disk orders c)
      (hc : c.Obeys disk order c') : History disk (orders ++ [order]) c'

variable {disk : Disk} {orders : List Order} {c : Chain}

/-- The resolvers of an engine are those that it was given. -/
theorem History.seats (h : History disk orders c) :
    c.Seats (Engine.addedBy orders) (Engine.defaultAfter orders) := by
  induction h with
  | new => exact ⟨rfl, rfl⟩
  | obey _ hc ih =>
    rw [Engine.addedBy_concat, Engine.defaultAfter_concat]
    exact ih.obeys hc

end Include

namespace Engine

/-- **Runs.**  Whatever an engine is told, its resolvers have the history that its orders say. -/
theorem history_obeyAll (disk : Disk) (orders : List Order) :
    ∃ c, History disk orders c ∧ (Engine.new disk).obeyAll orders = c.engine disk := by
  induction orders using List.reverseRecOn with
  | nil => exact ⟨{}, .new, rfl⟩
  | append_singleton orders order ih =>
    obtain ⟨c, hhistory, hnow⟩ := ih
    obtain ⟨c', hobeys, hnow'⟩ := c.obeys disk order
    exact ⟨c', hhistory.obey hobeys, by rw [obeyAll_concat, hnow, hnow']⟩

/-- **The chain of resolvers.**  After any orders the resolvers of an engine are those that have been added, in
order, and then the latest default, if it has not been cleared since; each has been asked what the history of
the engine says.  The next question gets the first text that is not empty in this order, or nothing if there
is none: everybody before the winner is asked it once and has no text, and nobody after the winner is. -/
theorem resolve_after (disk : Disk) (orders : List Order) :
    ∃ c, History disk orders c ∧ (Engine.new disk).obeyAll orders = c.engine disk ∧
      c.posts.map Post.resolver = addedBy orders ++ (defaultAfter orders).toList ∧
      ∀ a, (((Engine.new disk).obeyAll orders).resolve a).1 = c.posts.findSome? (Post.answer disk a) ∧
        ∃ c', Consults disk a c.posts (((Engine.new disk).obeyAll orders).resolve a).1 c'.posts ∧
          History disk (orders ++ [.resolve a]) c' ∧
          (((Engine.new disk).obeyAll orders).resolve a).2.1 = c'.engine disk := by
  obtain ⟨c, hhistory, hnow⟩ := history_obeyAll disk orders
  refine ⟨c, hhistory, hnow, ?_, fun a => ?_⟩
  · rw [Chain.posts, List.map_append, ← Option.toList_map, hhistory.seats.added, hhistory.seats.last]
  · obtain ⟨c', hresolves, hnow'⟩ := c.resolves disk a
    rw [hnow]
    exact ⟨hresolves.consults.found_eq, c', hresolves.consults, hhistory.obey (.resolve hresolves), hnow'⟩

/-- A map that answers once gives way to the default. -/
example :
    let e := (new Disk.empty).obeyAll [.add (.ofMap [("x", "a")] 1), .setDefault (.pure fun _ => some "b"),
      .resolve ⟨"x", none⟩]
    (e.resolve ⟨"x", none⟩).1 = some "b" := by
  decide

end Engine

end Stencil
