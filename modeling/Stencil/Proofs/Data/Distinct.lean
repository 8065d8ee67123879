import Mathlib.Data.Bool.AllAny
import Mathlib.Data.List.Nodup
import Stencil.Data.Written

/-!
# JSON texts tell values apart

Values without floating-point numbers are compared as they are built, and their JSON texts are equal exactly if
the values are.  The reason is that a text can be told from what comes after it: nothing that is escaped is the
beginning of something else that is escaped, a string ends at its quote, a number at a comma or a bracket, and a
list and a map at their closing bracket.

* `Value.same_iff` : the equality of values without floats.
* `jsonString_append` : a string and what comes after it.
* `Value.jsonText_append` : the same for values, by induction on both of them.
* `sortEntries_perm` : the order in which distinct keys are given does not matter.
* `Value.json_iff_same` : equality and texts agree.
-/

namespace Stencil.Data

-- powers as the core library has them, whatever else is imported
attribute [local instance (high)] instPowNat

namespace Value

mutual

/-- A value that holds no floating-point number. -/
def FloatFree : Value → Prop
  | .none | .bool _ | .int _ | .text _ => True
  | .float _ => False
  | .list items => FloatFreeItems items
  | .map entries => FloatFreeEntries entries

/-- No item holds a floating-point number. -/
def FloatFreeItems : List Value → Prop
  | [] => True
  | v :: items => FloatFree v ∧ FloatFreeItems items

/-- No entry holds a floating-point number. -/
def FloatFreeEntries : List (String × Value) → Prop
  | [] => True
  | (_, v) :: entries => FloatFree v ∧ FloatFreeEntries entries

end

/-! ### Equality -/

mutual

/-- **Equality.**  Without floats, values are the same if they are built alike. -/
theorem same_iff : {a : Value} → (b : Value) → a.FloatFree → (a.same b ↔ a = b)
  | .none, b, _ | .bool _, b, _ | .int _, b, _ | .text _, b, _ => by
    cases b <;> simp [same]
  | .list as, b, h => by
    cases b with
    | list bs => simpa [same] using sameItems_iff bs h
    | _ => simp [same]
  | .map as, b, h => by
    cases b with
    | map bs => simpa [same] using sameEntries_iff bs h
    | _ => simp [same]

theorem sameItems_iff : {as : List Value} → (bs : List Value) → FloatFreeItems as →
    (sameItems as bs ↔ as = bs)
  | [], bs, _ => by
    cases bs <;> simp [sameItems]
  | a :: as, bs, h => by
    cases bs with
    | nil => simp [sameItems]
    | cons b bs => simp [sameItems, same_iff b h.1, sameItems_iff bs h.2]

theorem sameEntries_iff : {as : List (String × Value)} → (bs : List (String × Value)) →
    FloatFreeEntries as → (sameEntries as bs ↔ as = bs)
  | [], bs, _ => by
    cases bs <;> simp [sameEntries]
  | (k, a) :: as, bs, h => by
    cases bs with
    | nil => simp [sameEntries]
    | cons b bs =>
      obtain ⟨l, b⟩ := b
      simp [sameEntries, same_iff b h.1, sameEntries_iff bs h.2, and_assoc]

end

end Value

/-! ### Strings -/

/-- The characters that a JSON string escapes. -/
def escaped : List Char := (List.range 0x20).map Char.ofNat ++ ['"', '\\']

/-- A character is escaped, or stands for itself. -/
theorem jsonChar_cases (c : Char) : c ∈ escaped ∨ jsonChar c = [c] ∧ c ≠ '"' ∧ c ≠ '\\' := by
  by_cases hc : c ∈ escaped
  · exact .inl hc
  · have hcontrol : ¬ c.toNat < 0x20 := fun hlt => hc (List.mem_append_left _
      (List.mem_map.2 ⟨c.toNat, List.mem_range.2 hlt, Char.ofNat_toNat c⟩))
    have hne {d : Char} (hd : d ∈ escaped) : c ≠ d := fun h => hc (h ▸ hd)
    refine .inr ⟨?_, hne (by decide), hne (by decide)⟩
    rw [jsonChar.eq_def]
    split
    all_goals first
      | exact absurd rfl (hne (by decide))
      | rw [if_neg hcontrol]

/-- All escapes start with a backslash. -/
theorem head?_jsonChar : ∀ c ∈ escaped, (jsonChar c).head? = some '\\' :=
  List.all_iff_forall_prop.1 (by decide +kernel)

/-- No escape is the beginning of another one. -/
theorem eq_of_prefix_jsonChar :
    ∀ c ∈ escaped, ∀ d ∈ escaped, jsonChar c <+: jsonChar d → c = d := by
  have hall : (escaped.all fun c => escaped.all fun d => decide (jsonChar c <+: jsonChar d → c = d)) = true := by
    decide +kernel
  simpa only [List.all_eq_true, decide_eq_true_iff] using hall

theorem jsonChar_eq_cons {c : Char} (hc : c ∈ escaped) : ∃ cs, jsonChar c = '\\' :: cs :=
  List.head?_eq_some_iff.1 (head?_jsonChar c hc)

/-- A character can be told from what comes after it. -/
theorem jsonChar_append {c d : Char} {x y : List Char} (h : jsonChar c ++ x = jsonChar d ++ y) :
    c = d ∧ x = y := by
  have hcd : c = d := by
    rcases jsonChar_cases c with hc | ⟨hc, -, hbackslash⟩ <;>
      rcases jsonChar_cases d with hd | ⟨hd, -, hbackslash'⟩
    · -- of two escapes in front of one text one is the beginning of the other
      rcases List.append_eq_append_iff.1 h with ⟨e, he, -⟩ | ⟨e, he, -⟩
      · exact eq_of_prefix_jsonChar c hc d hd ⟨e, he.symm⟩
      · exact (eq_of_prefix_jsonChar d hd c hc ⟨e, he.symm⟩).symm
    · obtain ⟨cs, hcs⟩ := jsonChar_eq_cons hc
      rw [hcs, hd] at h
      exact absurd (List.cons.inj h).1.symm hbackslash'
    · obtain ⟨ds, hds⟩ := jsonChar_eq_cons hd
      rw [hc, hds] at h
      exact absurd (List.cons.inj h).1 hbackslash
    · rw [hc, hd] at h
      exact (List.cons.inj h).1
  subst hcd
  exact ⟨rfl, List.append_cancel_left h⟩

/-- No character is written with a quote in front. -/
theorem jsonChar_ne_quote (c : Char) (x y : List Char) : jsonChar c ++ x ≠ '"' :: y := by
  intro h
  rcases jsonChar_cases c with hc | ⟨hc, hquote, -⟩
  · obtain ⟨cs, hcs⟩ := jsonChar_eq_cons hc
    rw [hcs] at h
    exact absurd (List.cons.inj h).1 (by decide)
  · rw [hc] at h
    exact hquote (List.cons.inj h).1

theorem flatMap_jsonChar_append {s t r r' : List Char}
    (h : s.flatMap jsonChar ++ '"' :: r = t.flatMap jsonChar ++ '"' :: r') : s = t ∧ r = r' := by
  induction s generalizing t with
  | nil =>
    cases t with
    | nil => exact ⟨rfl, (List.cons.inj h).2⟩
    | cons d t =>
      rw [List.flatMap_cons, List.append_assoc] at h
      exact absurd h.symm (jsonChar_ne_quote d _ _)
  | cons c s ih =>
    cases t with
    | nil =>
      rw [List.flatMap_cons, List.append_assoc] at h
      exact absurd h (jsonChar_ne_quote c _ _)
    | cons d t =>
      rw [List.flatMap_cons, List.flatMap_cons, List.append_assoc, List.append_assoc] at h
      obtain ⟨rfl, hrest⟩ := jsonChar_append h
      obtain ⟨rfl, hr⟩ := ih hrest
      exact ⟨rfl, hr⟩

/-- **Strings.**  A string can be told from what comes after it. -/
theorem jsonString_append {s t : String} {r r' : List Char} (h : jsonString s ++ r = jsonString t ++ r') :
    s = t ∧ r = r' := by
  simp only [jsonString, List.append_assoc, List.cons_append, List.nil_append, List.cons.injEq,
    true_and] at h
  obtain ⟨hst, hr⟩ := flatMap_jsonChar_append h
  exact ⟨String.toList_injective hst, hr⟩

/-! ### Numbers -/

/-- A character of an integer. -/
def isNumberPart (c : Char) : Bool := c.isDigit || c == '-'

theorem isDigit_of_mem_numeral {n : Nat} {c : Char} (hc : c ∈ Decimal.numeral n) : c.isDigit :=
  Nat.isDigit_of_mem_toDigits (by decide) (by decide) hc

theorem isNumberPart_of_mem_signed {n : Int} {c : Char} (hc : c ∈ Decimal.signed n) : isNumberPart c := by
  have hdigit (hc : c ∈ Decimal.numeral n.natAbs) : isNumberPart c := by
    simp [isNumberPart, isDigit_of_mem_numeral hc]
  rw [Decimal.signed] at hc
  split at hc
  · rcases List.mem_cons.1 hc with rfl | hc
    · rfl
    · exact hdigit hc
  · exact hdigit hc

theorem numeral_injective {m n : Nat} (h : Decimal.numeral m = Decimal.numeral n) : m = n := by
  have hvalue := congrArg (Nat.ofDigitChars 10 · 0) h
  simpa only [Decimal.numeral, Nat.ofDigitChars_ten_toDigits] using hvalue

theorem minus_ne_numeral (m n : Nat) : '-' :: Decimal.numeral m ≠ Decimal.numeral n := by
  intro h
  have hdigit : ('-').isDigit := isDigit_of_mem_numeral (h ▸ List.mem_cons_self)
  exact absurd hdigit (by decide)

theorem signed_injective {m n : Int} (h : Decimal.signed m = Decimal.signed n) : m = n := by
  simp only [Decimal.signed] at h
  split at h <;> split at h
  · have := numeral_injective (List.cons.inj h).2
    omega
  · exact absurd h (minus_ne_numeral _ _)
  · exact absurd h.symm (minus_ne_numeral _ _)
  · have := numeral_injective h
    omega

/-- The characters that come after a value. -/
def closers : List Char := [',', ']', '\x7d']

/-- What can come after a value: nothing, or something that is no part of it. -/
def Stops (r : List Char) : Prop := ∀ c ∈ r.head?, c ∈ closers

theorem stops_cons {c : Char} (h : c ∈ closers) (r : List Char) : Stops (c :: r) := by
  rintro _ ⟨⟩
  exact h

theorem isNumberPart_closer : ∀ c ∈ closers, isNumberPart c = false := List.all_iff_forall_prop.1 (by decide)

/-- **Numbers.**  An integer can be told from what comes after it, if that cannot be a part of it. -/
theorem signed_append {m n : Int} {r r' : List Char} (hr : Stops r) (hr' : Stops r')
    (h : Decimal.signed m ++ r = Decimal.signed n ++ r') : m = n ∧ r = r' := by
  have htake (k : Int) {t : List Char} (ht : Stops t) :
      (Decimal.signed k ++ t).takeWhile isNumberPart = Decimal.signed k := by
    rw [List.takeWhile_append_of_pos fun c hc => isNumberPart_of_mem_signed hc]
    cases t with
    | nil => rw [List.takeWhile_nil, List.append_nil]
    | cons c t => rw [List.takeWhile_cons_of_neg (by simp [isNumberPart_closer c (ht c rfl)]), List.append_nil]
  -- the integer is as much of the text as can be part of one
  have hsigned : Decimal.signed m = Decimal.signed n := by rw [← htake m hr, h, htake n hr']
  rw [hsigned] at h
  exact ⟨signed_injective hsigned, List.append_cancel_left h⟩

/-! ### Values -/

namespace Value

/-- The kind of a value that the first character of its text tells. -/
def mark : Value → Char
  | .none => 'n'
  | .bool _ => 't'
  | .int _ | .float _ => '0'
  | .text _ => '"'
  | .list _ => '['
  | .map _ => '\x7b'

/-- What the first character of a text tells. -/
def told (c : Char) : Char := if isNumberPart c then '0' else if c = 'f' then 't' else c

theorem jsonText_head {a : Value} (h : a.FloatFree) : ∃ c cs, a.jsonText = c :: cs ∧ told c = a.mark := by
  cases a with
  | float x => exact h.elim
  | bool b => cases b <;> exact ⟨_, _, rfl, rfl⟩
  | int n =>
    obtain ⟨c, cs, hcs⟩ : ∃ c cs, Decimal.signed n.toInt = c :: cs := by
      rw [Decimal.signed]
      split
      · exact ⟨_, _, rfl⟩
      · exact List.exists_cons_of_ne_nil Nat.toDigits_ne_nil
    refine ⟨c, cs, hcs, ?_⟩
    rw [told, if_pos (isNumberPart_of_mem_signed (hcs ▸ List.mem_cons_self))]
    rfl
  | _ => exact ⟨_, _, rfl, rfl⟩

/-- Values with one text are of one kind. -/
theorem mark_eq {a b : Value} (ha : a.FloatFree) (hb : b.FloatFree) {r r' : List Char}
    (h : a.jsonText ++ r = b.jsonText ++ r') : a.mark = b.mark := by
  obtain ⟨c, cs, hcs, hc⟩ := jsonText_head ha
  obtain ⟨d, ds, hds, hd⟩ := jsonText_head hb
  rw [hcs, hds] at h
  rw [← hc, ← hd, (List.cons.inj h).1]

theorem told_closer : ∀ c ∈ closers, told c = c := List.all_iff_forall_prop.1 (by decide)

theorem mark_notMem_closers (a : Value) : a.mark ∉ closers := by
  cases a <;> simp [mark, closers]

/-- The text of a value does not start with what comes after a value. -/
theorem jsonText_ne_closer {a : Value} (ha : a.FloatFree) {c : Char} (hc : c ∈ closers) (r r' : List Char) :
    a.jsonText ++ r ≠ c :: r' := by
  intro h
  obtain ⟨d, ds, hds, hd⟩ := jsonText_head ha
  rw [hds] at h
  rw [(List.cons.inj h).1, told_closer c hc] at hd
  exact mark_notMem_closers a (hd ▸ hc)

/-- The items after the first one, each with a comma before it. -/
def moreItems : List Value → List Char
  | [] => []
  | v :: items => ',' :: jsonItems (v :: items)

theorem jsonItems_cons (v : Value) (items : List Value) :
    jsonItems (v :: items) = v.jsonText ++ moreItems items := by
  cases items with
  | nil => rw [jsonItems, moreItems, List.append_nil]
  | cons w items => rw [jsonItems, moreItems, List.append_assoc, List.singleton_append]

/-- The entries after the first one, each with a comma before it. -/
def moreEntries : List (String × Value) → List Char
  | [] => []
  | e :: entries => ',' :: jsonEntries (e :: entries)

theorem jsonEntries_cons (k : String) (v : Value) (entries : List (String × Value)) :
    jsonEntries ((k, v) :: entries) = jsonString k ++ ':' :: (v.jsonText ++ moreEntries entries) := by
  cases entries with
  | nil => simp [jsonEntries, moreEntries]
  | cons e entries => simp [jsonEntries, moreEntries]

theorem stops_moreItems (items : List Value) (r : List Char) : Stops (moreItems items ++ ']' :: r) := by
  cases items <;> exact stops_cons (by decide) _

theorem stops_moreEntries (entries : List (String × Value)) (r : List Char) :
    Stops (moreEntries entries ++ '\x7d' :: r) := by
  cases entries <;> exact stops_cons (by decide) _

/-- Items end together, or a comma follows in both texts. -/
theorem jsonItems_of_moreItems {as bs : List Value} {r r' : List Char}
    (h : moreItems as ++ ']' :: r = moreItems bs ++ ']' :: r') :
    jsonItems as ++ ']' :: r = jsonItems bs ++ ']' :: r' := by
  cases as with
  | nil =>
    cases bs with
    | nil => exact h
    | cons b bs => simp [moreItems] at h
  | cons a as =>
    cases bs with
    | nil => simp [moreItems] at h
    | cons b bs => exact (List.cons.inj h).2

theorem jsonEntries_of_moreEntries {as bs : List (String × Value)} {r r' : List Char}
    (h : moreEntries as ++ '\x7d' :: r = moreEntries bs ++ '\x7d' :: r') :
    jsonEntries as ++ '\x7d' :: r = jsonEntries bs ++ '\x7d' :: r' := by
  cases as with
  | nil =>
    cases bs with
    | nil => exact h
    | cons b bs => simp [moreEntries] at h
  | cons a as =>
    cases bs with
    | nil => simp [moreEntries] at h
    | cons b bs => exact (List.cons.inj h).2

mutual

/-- **Values.**  A value without floats can be told from what comes after it.  The induction is on the value; the
first character of its text says of which kind the other value is. -/
theorem jsonText_append : {a : Value} → (b : Value) → a.FloatFree → b.FloatFree → (r r' : List Char) →
    Stops r → Stops r' → a.jsonText ++ r = b.jsonText ++ r' → a = b ∧ r = r'
  | .none, b, ha, hb, r, r', _, _, h => by
    have hmark := mark_eq ha hb h
    cases b with
    | none => exact ⟨rfl, List.append_cancel_left h⟩
    | _ => simp [mark] at hmark
  | .bool a, b, ha, hb, r, r', _, _, h => by
    have hmark := mark_eq ha hb h
    cases b with
    | bool b =>
      obtain rfl : a = b := by cases a <;> cases b <;> simp [jsonText] at h ⊢
      exact ⟨rfl, List.append_cancel_left h⟩
    | _ => simp [mark] at hmark
  | .int m, b, ha, hb, r, r', hr, hr', h => by
    have hmark := mark_eq ha hb h
    cases b with
    | int n =>
      obtain ⟨hmn, hrest⟩ := signed_append hr hr' h
      exact ⟨congrArg _ (Int64.toInt_inj.1 hmn), hrest⟩
    | float x => exact hb.elim
    | _ => simp [mark] at hmark
  | .text s, b, ha, hb, r, r', _, _, h => by
    have hmark := mark_eq ha hb h
    cases b with
    | text t =>
      obtain ⟨rfl, hrest⟩ := jsonString_append h
      exact ⟨rfl, hrest⟩
    | _ => simp [mark] at hmark
  | .list as, b, ha, hb, r, r', _, _, h => by
    have hmark := mark_eq ha hb h
    cases b with
    | list bs =>
      simp only [jsonText, List.cons_append, List.nil_append, List.append_assoc, List.cons.injEq, true_and] at h
      obtain ⟨rfl, hrest⟩ := jsonItems_append bs ha hb r r' h
      exact ⟨rfl, hrest⟩
    | _ => simp [mark] at hmark
  | .map as, b, ha, hb, r, r', _, _, h => by
    have hmark := mark_eq ha hb h
    cases b with
    | map bs =>
      simp only [jsonText, List.cons_append, List.nil_append, List.append_assoc, List.cons.injEq, true_and] at h
      obtain ⟨rfl, hrest⟩ := jsonEntries_append bs ha hb r r' h
      exact ⟨rfl, hrest⟩
    | _ => simp [mark] at hmark

theorem jsonItems_append : {as : List Value} → (bs : List Value) → FloatFreeItems as → FloatFreeItems bs →
    (r r' : List Char) → jsonItems as ++ ']' :: r = jsonItems bs ++ ']' :: r' → as = bs ∧ r = r'
  | [], [], _, _, r, r', h => ⟨rfl, (List.cons.inj h).2⟩
  | [], b :: bs, _, hb, r, r', h => by
    rw [jsonItems_cons, List.append_assoc] at h
    exact absurd h.symm (jsonText_ne_closer hb.1 (by decide) _ _)
  | a :: as, [], ha, _, r, r', h => by
    rw [jsonItems_cons, List.append_assoc] at h
    exact absurd h (jsonText_ne_closer ha.1 (by decide) _ _)
  | a :: as, b :: bs, ha, hb, r, r', h => by
    rw [jsonItems_cons, jsonItems_cons, List.append_assoc, List.append_assoc] at h
    obtain ⟨rfl, hmore⟩ := jsonText_append b ha.1 hb.1 _ _ (stops_moreItems as r) (stops_moreItems bs r') h
    obtain ⟨rfl, hrest⟩ := jsonItems_append bs ha.2 hb.2 r r' (jsonItems_of_moreItems hmore)
    exact ⟨rfl, hrest⟩

theorem jsonEntries_append : {as : List (String × Value)} → (bs : List (String × Value)) → FloatFreeEntries as →
    FloatFreeEntries bs → (r r' : List Char) →
    jsonEntries as ++ '\x7d' :: r = jsonEntries bs ++ '\x7d' :: r' → as = bs ∧ r = r'
  | [], [], _, _, r, r', h => ⟨rfl, (List.cons.inj h).2⟩
  | [], (l, b) :: bs, _, hb, r, r', h => by
    rw [jsonEntries_cons] at h
    exact absurd (List.cons.inj h).1 (by decide)
  | (k, a) :: as, [], ha, _, r, r', h => by
    rw [jsonEntries_cons] at h
    exact absurd (List.cons.inj h).1 (by decide)
  | (k, a) :: as, (l, b) :: bs, ha, hb, r, r', h => by
    simp only [jsonEntries_cons, List.append_assoc, List.cons_append] at h
    obtain ⟨rfl, hvalue⟩ := jsonString_append h
    obtain ⟨rfl, hmore⟩ := jsonText_append b ha.1 hb.1 _ _ (stops_moreEntries as r) (stops_moreEntries bs r')
      (List.cons.inj hvalue).2
    obtain ⟨rfl, hrest⟩ := jsonEntries_append bs ha.2 hb.2 r r' (jsonEntries_of_moreEntries hmore)
    exact ⟨rfl, hrest⟩

end

/-- Values without floats that have one text are one value. -/
theorem json_injective {a b : Value} (ha : a.FloatFree) (hb : b.FloatFree) (h : a.json = b.json) : a = b := by
  have htext : a.jsonText ++ [] = b.jsonText ++ [] := by
    rw [List.append_nil, List.append_nil]
    exact String.ofList_injective h
  exact (jsonText_append b ha hb [] [] (by simp [Stops]) (by simp [Stops]) htext).1

end Value

/-! ### Maps -/

/-- Two keys can be put into entries in any order. -/
theorem insertEntry_comm {α : Type} {k l : String} (h : k ≠ l) (v w : α) (es : List (String × α)) :
    insertEntry k v (insertEntry l w es) = insertEntry l w (insertEntry k v es) := by
  induction es with
  | nil =>
    simp only [insertEntry]
    grind
  | cons e es ih =>
    obtain ⟨x, u⟩ := e
    simp only [insertEntry]
    grind [insertEntry]

/-- The order in which distinct keys are given does not matter. -/
theorem sortEntries_perm {α : Type} {es es' : List (String × α)} (h : es.Perm es')
    (hkeys : (es.map Prod.fst).Nodup) : sortEntries es = sortEntries es' := by
  refine List.Perm.foldl_eq' h (fun e he f hf sorted => ?_) []
  by_cases hef : e = f
  · rw [hef]
  · have hne : f.1 ≠ e.1 := fun hkey => hef (List.inj_on_of_nodup_map hkeys he hf hkey.symm)
    exact insertEntry_comm hne _ _ _

namespace Value

/-- **Equality and texts.**  On values without floats, equality is an equivalence, and two values have one JSON text
exactly if they are equal, and that is if they are built alike.  Entries with distinct keys have one text in whatever
order they are given. -/
theorem json_iff_same {a b : Value} (ha : a.FloatFree) (hb : b.FloatFree) :
    (a.same a ∧ (a.same b → b.same a) ∧ ∀ c, a.same b → b.same c → a.same c) ∧
    (a.json = b.json ↔ a.same b) ∧ (a.same b ↔ a = b) ∧
    ∀ es es' : List (String × Value), es.Perm es' → (es.map Prod.fst).Nodup →
      (ofEntries es).json = (ofEntries es').json := by
  simp only [same_iff _ ha, same_iff _ hb]
  refine ⟨⟨trivial, Eq.symm, fun _ => Eq.trans⟩, ⟨json_injective ha hb, congrArg json⟩, trivial, ?_⟩
  intro es es' hperm hkeys
  rw [ofEntries, ofEntries, sortEntries_perm hperm hkeys]

/-- A key that holds nothing is not a missing key, and two keys have one text in either order. -/
theorem json_iff_same_missing :
    ((Value.map []).FloatFree ∧ (Value.map [("a", .none)]).FloatFree) ∧
      (Value.map []).json ≠ (Value.map [("a", .none)]).json ∧
      (ofEntries [("b", .text "\""), ("a", .list [])]).json =
        (ofEntries [("a", .list []), ("b", .text "\"")]).json := by
  have hfree : (Value.map []).FloatFree ∧ (Value.map [("a", .none)]).FloatFree := ⟨trivial, trivial, trivial⟩
  obtain ⟨-, hjson, -, hperm⟩ := json_iff_same hfree.1 hfree.2
  exact ⟨hfree, fun h => Bool.noConfusion (hjson.1 h), hperm _ _ (.swap ..) (by decide)⟩

end Value

end Stencil.Data
