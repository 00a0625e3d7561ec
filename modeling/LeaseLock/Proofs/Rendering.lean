import LeaseLock.Proofs.Digits
import LeaseLock.Sql.Statement

/-!
# How templates become statements

Where a template has its parameters, and what their values are bound to.

## The model

A parameter is mentioned by a colon and its name; the name has to end there, so no letter, digit or
underscore may follow (`Stops`). To cut a template at its parameters is to give the text before the
first one, and each parameter with the text after it (`Cutting`). A cutting is proper if it cuts at
mentions only, and at all of them. Nothing is said of how a template is read, from where or how often.

A driver is handed the text of a statement and its values. `Placeholder.fill` is a driver that takes
whatever looks like a mark for a place: the next question mark is the place of the next value, and a
dollar sign with the number of a place is that place.

## What is proved

Every template has one proper cutting and no other. Its statement has the texts of the cutting with
marks between them, and its parameters in order (`render_cuts`). To put the values of a statement at its
places is to put the value of each parameter in the place of its mention; and the driver above does so,
too, if no text of the template looks like a mark itself.
-/

namespace LeaseLock.Sql

/-! ### Mentions -/

/-- No name goes on here. -/
def Stops (cs : List Char) : Prop := ∀ c, cs.head? = some c → isWordChar c = false

theorem stops_nil : Stops [] := by
  intro c h
  cases h

theorem stops_cons {c : Char} {cs : List Char} : Stops (c :: cs) ↔ isWordChar c = false := by
  simp [Stops]

/-- What stops a name has a first character that does, or is followed by one that does. -/
theorem stops_append {cs ds : List Char} (h : Stops cs) (hd : Stops ds) : Stops (cs ++ ds) := by
  cases cs with
  | nil => exact hd
  | cons c cs => exact stops_cons.2 (stops_cons.1 h)

theorem stops_left {cs ds : List Char} (h : Stops (cs ++ ds)) : Stops cs := by
  cases cs with
  | nil => exact stops_nil
  | cons c cs => exact stops_cons.2 (stops_cons.1 h)

/-- The characters of a mention. -/
def Param.mentionChars (p : Param) : List Char := ':' :: p.token.toList

theorem Param.isWordChar_of_mem_token {p : Param} {c : Char} (h : c ∈ p.token.toList) :
    isWordChar c = true := by
  have hall : p.token.toList.all isWordChar = true := by cases p <;> decide
  exact List.all_eq_true.1 hall c h

theorem Param.ofToken?_eq_some_iff {cs : List Char} {p : Param} :
    ofToken? cs = some p ↔ cs = p.token.toList := by
  constructor
  · intro h
    have hp := List.find?_some h
    exact (beq_iff_eq.1 hp).symm
  · rintro rfl
    exact ofToken?_token p

/-- The name that a mention begins with is that of its parameter. -/
theorem takeWhile_token (p : Param) {cs : List Char} (h : Stops cs) :
    (p.token.toList ++ cs).takeWhile isWordChar = p.token.toList := by
  rw [List.takeWhile_append_of_pos fun c hc => Param.isWordChar_of_mem_token hc]
  cases cs with
  | nil => simp
  | cons c cs => simp [stops_cons.1 h]

/-- Where a name ends, none goes on. -/
theorem stops_dropWhile (cs : List Char) : Stops (cs.dropWhile isWordChar) := by
  intro c hc
  have h := List.head?_dropWhile_not isWordChar cs
  rw [hc] at h
  exact h

/-- A name ends with a text at the latest if none goes on behind it. -/
theorem takeWhile_append_of_stops (cs : List Char) {rest : List Char} (h : Stops rest) :
    (cs ++ rest).takeWhile isWordChar = cs.takeWhile isWordChar := by
  cases rest with
  | nil => rw [List.append_nil]
  | cons d rest =>
    rw [List.takeWhile_append, List.takeWhile_cons_of_neg (by simp [stops_cons.1 h])]
    split
    · rename_i hlen
      rw [List.append_nil, (List.takeWhile_prefix isWordChar).eq_of_length hlen]
    · rfl

/-! ### Cuttings -/

/-- A template that is cut at its parameters. -/
structure Cutting where
  /-- The text before the first parameter. -/
  head : List Char
  /-- The parameters, each with the text after it. -/
  tail : List (Param × List Char)

namespace Cutting

/-- The texts. -/
def texts (k : Cutting) : List (List Char) := k.head :: k.tail.map Prod.snd

/-- The parameters. -/
def params (k : Cutting) : List Param := k.tail.map Prod.fst

section Weave

variable {α : Type}

/-- Parameters from number `n` on, each with the text after it, in other terms. -/
def weaveFrom (char : Char → α) (param : Nat → Param → List α) (n : Nat) :
    List (Param × List Char) → List α
  | [] => []
  | (p, cs) :: more => param n p ++ (cs.map char ++ weaveFrom char param (n + 1) more)

/-- The texts, and what is put between them for the parameters, which are counted from one. -/
def weave (char : Char → α) (param : Nat → Param → List α) (k : Cutting) : List α :=
  k.head.map char ++ weaveFrom char param 1 k.tail

end Weave

/-- The template. -/
def template (k : Cutting) : List Char := k.weave id fun _ p => p.mentionChars

/-- The text of the statement. -/
def sql (style : Placeholder) (k : Cutting) : List Char := k.weave id fun i _ => style.mark i

/-- The template with values in the place of its parameters. -/
def substituted (value : Param → Bound) (k : Cutting) : List (Char ⊕ Bound) :=
  k.weave .inl fun _ p => [.inr (value p)]

/-- The statement with the values of a list at its places. -/
def bound (values : List Bound) (k : Cutting) : List (Char ⊕ Bound) :=
  k.weave .inl fun i _ => (values[i - 1]?).toList.map .inr

/-- It is cut at mentions only, and at all of them. -/
structure Proper (k : Cutting) : Prop where
  /-- The names of parameters end where they are cut. -/
  whole : ∀ e ∈ k.tail, Stops e.2
  /-- No parameter is mentioned in a text. -/
  clean : ∀ cs ∈ k.texts, ∀ (u : List Char) (p : Param) (v : List Char),
    cs = u ++ (p.mentionChars ++ v) → ¬Stops v

/-! ### There is one -/

variable {k : Cutting}

/-- Behind a text there is the end, or a colon. -/
theorem stops_weaveFrom (n : Nat) (tail : List (Param × List Char)) :
    Stops (weaveFrom id (fun _ p => p.mentionChars) n tail) := by
  cases tail with
  | nil => exact stops_nil
  | cons e tail => exact stops_cons.2 (by decide)

/-- The template of a cutting from some number on. -/
theorem weaveFrom_template (m n : Nat) (tail : List (Param × List Char)) :
    weaveFrom id (fun _ p => p.mentionChars) m tail =
      weaveFrom id (fun _ p => p.mentionChars) n tail := by
  induction tail generalizing m n with
  | nil => rfl
  | cons e tail ih => simp only [weaveFrom, ih (m + 1) (n + 1)]

/-- One more parameter is mentioned at the front. -/
theorem Proper.mention (h : k.Proper) (p : Param) (hs : Stops k.template) :
    (⟨[], (p, k.head) :: k.tail⟩ : Cutting).Proper where
  whole := by
    intro e he
    rcases List.mem_cons.1 he with rfl | he
    · rw [template, weave, List.map_id] at hs
      exact stops_left hs
    · exact h.whole e he
  clean := by
    intro cs hcs
    rcases List.mem_cons.1 hcs with rfl | hcs
    · intro u q v huv
      simp [Param.mentionChars] at huv
    · exact h.clean cs hcs

/-- One more character is at the front, and no mention. -/
theorem Proper.char (h : k.Proper) {c : Char}
    (hc : ∀ (p : Param) (v : List Char), c :: k.template = p.mentionChars ++ v → ¬Stops v) :
    (⟨c :: k.head, k.tail⟩ : Cutting).Proper where
  whole := h.whole
  clean := by
    intro cs hcs u p v huv hv
    rcases List.mem_cons.1 hcs with rfl | hcs
    · cases u with
      | nil =>
        -- The mention would be one at the front of the template.
        refine hc p (v ++ weaveFrom id (fun _ p => p.mentionChars) 1 k.tail) ?_ ?_
        · have hhead : c :: k.head = p.mentionChars ++ v := huv
          rw [template, weave, List.map_id, ← List.cons_append, hhead, List.append_assoc]
        · exact stops_append hv (stops_weaveFrom 1 k.tail)
      | cons d u =>
        rw [List.cons_append, List.cons.injEq] at huv
        exact h.clean k.head List.mem_cons_self u p v huv.2 hv
    · exact h.clean cs (List.mem_cons_of_mem _ hcs) u p v huv hv

/-- **Every template** can be cut properly. -/
theorem exists_proper (cs : List Char) : ∃ k : Cutting, k.Proper ∧ k.template = cs := by
  induction hn : cs.length using Nat.strongRecOn generalizing cs with
  | ind n ih =>
    subst hn
    by_cases hm : ∃ (p : Param) (v : List Char), cs = p.mentionChars ++ v ∧ Stops v
    · obtain ⟨p, v, rfl, hv⟩ := hm
      have hlt : v.length < (p.mentionChars ++ v).length := by
        simp only [Param.mentionChars, List.length_append, List.length_cons]
        omega
      obtain ⟨k, hk, rfl⟩ := ih v.length hlt v rfl
      refine ⟨⟨[], (p, k.head) :: k.tail⟩, hk.mention p hv, ?_⟩
      simp only [template, weave, weaveFrom, List.map_nil, List.nil_append, weaveFrom_template 2 1]
    · cases cs with
      | nil => exact ⟨⟨[], []⟩, ⟨by simp, by simp [texts, Param.mentionChars]⟩, rfl⟩
      | cons c cs =>
        obtain ⟨k, hk, rfl⟩ := ih cs.length (Nat.lt_succ_self _) cs rfl
        refine ⟨⟨c :: k.head, k.tail⟩, hk.char fun p v hcs hv => hm ⟨p, v, hcs, hv⟩, ?_⟩
        simp [template, weave]

end Cutting

/-! ### How it is found -/

theorem piecesFrom_eq (n : Nat) (cs : List Char) : piecesFrom n cs = pieces (cs.drop n) := by
  induction cs generalizing n with
  | nil => cases n <;> rfl
  | cons c cs ih =>
    cases n with
    | zero => rfl
    | succ n =>
      rw [piecesFrom, ih n]
      rfl

theorem pieces_cons_char {c : Char} {cs : List Char}
    (h : c = ':' → Param.ofToken? (cs.takeWhile isWordChar) = none) :
    pieces (c :: cs) = .char c :: pieces cs := by
  rw [pieces, piecesFrom]
  split
  · rename_i hc
    rw [h hc]
    rfl
  · rfl

theorem pieces_mention (p : Param) {cs : List Char} (h : Stops cs) :
    pieces (p.mentionChars ++ cs) = .param p :: pieces cs := by
  rw [pieces, Param.mentionChars, List.cons_append, piecesFrom, if_pos rfl, takeWhile_token p h,
    Param.ofToken?_token]
  simp [piecesFrom_eq]

/-- A text without mentions is read as it is. -/
theorem pieces_text {cs rest : List Char} (hrest : Stops rest)
    (h : ∀ (u : List Char) (p : Param) (v : List Char), cs = u ++ (p.mentionChars ++ v) → ¬Stops v) :
    pieces (cs ++ rest) = cs.map .char ++ pieces rest := by
  induction cs with
  | nil => rfl
  | cons c cs ih =>
    rw [List.cons_append, pieces_cons_char, ih fun u p v huv => h (c :: u) p v (by rw [huv]; rfl)]
    · rfl
    · intro hc
      apply Option.eq_none_iff_forall_ne_some.2
      intro p hp
      rw [Param.ofToken?_eq_some_iff, takeWhile_append_of_stops cs hrest] at hp
      apply h [] p (cs.dropWhile isWordChar) _ (stops_dropWhile cs)
      rw [hc, Param.mentionChars, List.cons_append, ← hp, List.takeWhile_append_dropWhile]
      rfl

namespace Cutting

variable {k : Cutting}

/-- The pieces of parameters, each with the text after it. -/
def tailPieces (tail : List (Param × List Char)) : List Piece :=
  tail.flatMap fun e => .param e.1 :: e.2.map .char

theorem pieces_tail (n : Nat) (tail : List (Param × List Char)) (hwhole : ∀ e ∈ tail, Stops e.2)
    (hclean : ∀ e ∈ tail, ∀ (u : List Char) (p : Param) (v : List Char),
      e.2 = u ++ (p.mentionChars ++ v) → ¬Stops v) :
    pieces (weaveFrom id (fun _ p => p.mentionChars) n tail) = tailPieces tail := by
  induction tail generalizing n with
  | nil => rfl
  | cons e tail ih =>
    obtain ⟨p, cs⟩ := e
    have hrest := stops_weaveFrom (n + 1) tail
    have hcs := hwhole (p, cs) List.mem_cons_self
    rw [weaveFrom, List.map_id, pieces_mention p (stops_append hcs hrest),
      pieces_text hrest (hclean (p, cs) List.mem_cons_self)]
    rw [ih (n + 1) (fun e he => hwhole e (List.mem_cons_of_mem _ he))
      fun e he => hclean e (List.mem_cons_of_mem _ he)]
    simp [tailPieces]

/-- **The reader finds** a proper cutting. -/
theorem Proper.pieces_template (h : k.Proper) :
    pieces k.template = k.head.map .char ++ tailPieces k.tail := by
  rw [template, weave, List.map_id, pieces_text (stops_weaveFrom 1 k.tail)
    (h.clean k.head List.mem_cons_self)]
  rw [pieces_tail 1 k.tail h.whole fun e he =>
    h.clean e.2 (List.mem_cons_of_mem _ (List.mem_map_of_mem he))]

/-- The cutting of pieces. -/
def ofPieces : List Piece → Cutting
  | [] => ⟨[], []⟩
  | .char c :: ps => ⟨c :: (ofPieces ps).head, (ofPieces ps).tail⟩
  | .param p :: ps => ⟨[], (p, (ofPieces ps).head) :: (ofPieces ps).tail⟩

theorem ofPieces_chars (cs : List Char) (ps : List Piece) :
    ofPieces (cs.map .char ++ ps) = ⟨cs ++ (ofPieces ps).head, (ofPieces ps).tail⟩ := by
  induction cs with
  | nil => rfl
  | cons c cs ih => simp [ofPieces, ih]

theorem ofPieces_tailPieces (tail : List (Param × List Char)) :
    ofPieces (tailPieces tail) = ⟨[], tail⟩ := by
  induction tail with
  | nil => rfl
  | cons e tail ih =>
    rw [tailPieces, List.flatMap_cons, List.cons_append, ofPieces, ofPieces_chars, ← tailPieces, ih]
    simp

/-- The pieces tell the cutting. -/
theorem Proper.eq_ofPieces (h : k.Proper) : k = ofPieces (pieces k.template) := by
  rw [h.pieces_template, ofPieces_chars, ofPieces_tailPieces, List.append_nil]

/-! ### The statement -/

theorem text_chars (style : Placeholder) (n : Nat) (cs : List Char) (ps : List Piece) :
    Piece.text style n (cs.map .char ++ ps) = cs ++ Piece.text style n ps := by
  induction cs with
  | nil => rfl
  | cons c cs ih => simp [Piece.text, ih]

theorem params_chars (cs : List Char) (ps : List Piece) :
    Piece.params (cs.map .char ++ ps) = Piece.params ps := by
  induction cs with
  | nil => rfl
  | cons c cs ih => simp [Piece.params, ih]

theorem text_tailPieces (style : Placeholder) (n : Nat) (tail : List (Param × List Char)) :
    Piece.text style n (tailPieces tail) = weaveFrom id (fun i _ => style.mark i) (n + 1) tail := by
  induction tail generalizing n with
  | nil => rfl
  | cons e tail ih =>
    rw [tailPieces, List.flatMap_cons, List.cons_append, Piece.text, text_chars, ← tailPieces, ih,
      weaveFrom, List.map_id]

theorem params_tailPieces (tail : List (Param × List Char)) :
    Piece.params (tailPieces tail) = tail.map Prod.fst := by
  induction tail with
  | nil => rfl
  | cons e tail ih =>
    rw [tailPieces, List.flatMap_cons, List.cons_append, Piece.params, params_chars, ← tailPieces, ih,
      List.map_cons]

/-- The statement of a template that is cut. -/
theorem Proper.render (h : k.Proper) (style : Placeholder) :
    Statement.render style (String.ofList k.template) =
      ⟨String.ofList (k.sql style), k.params⟩ := by
  rw [Statement.render, String.toList_ofList]
  simp only [h.pieces_template, text_chars, text_tailPieces, params_chars, params_tailPieces]
  rw [sql, weave, List.map_id, params]

theorem weaveFrom_congr {α : Type} {char : Char → α} {f g : Nat → Param → List α} (n : Nat)
    (tail : List (Param × List Char))
    (h : ∀ i p cs, tail[i]? = some (p, cs) → f (n + i) p = g (n + i) p) :
    weaveFrom char f n tail = weaveFrom char g n tail := by
  induction tail generalizing n with
  | nil => rfl
  | cons e tail ih =>
    have hhead : f n e.1 = g n e.1 := h 0 e.1 e.2 rfl
    have htail := ih (n + 1) fun i p cs hi => by
      rw [Nat.add_assoc, Nat.add_comm 1 i]
      exact h (i + 1) p cs hi
    simp only [weaveFrom, hhead, htail]

/-- **The places and the mentions** get the same values. -/
theorem bound_eq_substituted (value : Param → Bound) (k : Cutting) :
    k.bound (k.params.map value) = k.substituted value := by
  refine congrArg _ (weaveFrom_congr 1 k.tail fun i p cs hi => ?_)
  rw [Nat.add_sub_cancel_left, List.getElem?_map, params, List.getElem?_map, hi]
  rfl

end Cutting

/-! ### Drivers -/

/-- Puts the next value at each question mark. There have to be as many values. -/
def fillNext : List Bound → List Char → Option (List (Char ⊕ Bound))
  | [], [] => some []
  | _ :: _, [] => none
  | vs, c :: cs =>
    if c = '?' then
      match vs with
      | [] => none
      | v :: vs => (fillNext vs cs).map (.inr v :: ·)
    else (fillNext vs cs).map (.inl c :: ·)

/-- The value at the place of a number. -/
def valueAt (vs : List Bound) : Nat → Option Bound
  | 0 => none
  | n + 1 => vs[n]?

/-- Puts the value of its number at each dollar sign with a number, after the first `skip`
characters. -/
def fillNumbered (vs : List Bound) (skip : Nat) : List Char → Option (List (Char ⊕ Bound))
  | [] => some []
  | c :: cs =>
    match skip with
    | n + 1 => fillNumbered vs n cs
    | 0 =>
      if c = '$' ∧ cs.takeWhile Char.isDigit ≠ [] then
        (valueAt vs (Text.Numeral.value (cs.takeWhile Char.isDigit))).bind fun v =>
          (fillNumbered vs (cs.takeWhile Char.isDigit).length cs).map (.inr v :: ·)
      else (fillNumbered vs 0 cs).map (.inl c :: ·)

namespace Placeholder

/-- Puts values at whatever looks like a mark. -/
def fill (vs : List Bound) (cs : List Char) : Placeholder → Option (List (Char ⊕ Bound))
  | question => fillNext vs cs
  | dollar => fillNumbered vs 0 cs

/-- Nothing in a text looks like a mark. -/
def Spares (cs : List Char) : Placeholder → Prop
  | question => '?' ∉ cs
  | dollar => ∀ u c v, cs = u ++ '$' :: c :: v → c.isDigit = false

end Placeholder

namespace Cutting

theorem fillNext_text {cs : List Char} (h : Placeholder.question.Spares cs) (vs : List Bound)
    (rest : List Char) :
    fillNext vs (cs ++ rest) = (fillNext vs rest).map (cs.map .inl ++ ·) := by
  induction cs with
  | nil => simp
  | cons c cs ih =>
    rw [Placeholder.Spares, List.mem_cons, not_or] at h
    obtain ⟨hc, hcs⟩ := h
    cases vs <;> rw [List.cons_append, fillNext, if_neg (Ne.symm hc), ih hcs, Option.map_map] <;> rfl

theorem fillNext_weaveFrom (value : Param → Bound) (n : Nat) (tail : List (Param × List Char))
    (h : ∀ e ∈ tail, Placeholder.question.Spares e.2) :
    fillNext (tail.map fun e => value e.1)
        (weaveFrom id (fun i _ => Placeholder.question.mark i) n tail) =
      some (weaveFrom .inl (fun _ p => [.inr (value p)]) n tail) := by
  induction tail generalizing n with
  | nil => rfl
  | cons e tail ih =>
    obtain ⟨p, cs⟩ := e
    have hcs := h (p, cs) List.mem_cons_self
    rw [weaveFrom, List.map_cons, Placeholder.mark, List.singleton_append, fillNext, if_pos rfl,
      List.map_id, fillNext_text hcs, ih (n + 1) fun e he => h e (List.mem_cons_of_mem _ he)]
    rfl

theorem fillNumbered_eq (vs : List Bound) (n : Nat) (cs : List Char) :
    fillNumbered vs n cs = fillNumbered vs 0 (cs.drop n) := by
  induction cs generalizing n with
  | nil => cases n <;> rfl
  | cons c cs ih =>
    cases n with
    | zero => rfl
    | succ n =>
      rw [fillNumbered, ih n]
      rfl

/-- No digit comes first. -/
def NoDigit (cs : List Char) : Prop := ∀ c, cs.head? = some c → c.isDigit = false

theorem noDigit_of_stops {cs : List Char} (h : Stops cs) : NoDigit cs := by
  intro c hc
  have hw := h c hc
  simp only [isWordChar, Char.isAlphanum, Bool.or_eq_false_iff] at hw
  exact hw.1.2

theorem takeWhile_of_noDigit {cs : List Char} (h : NoDigit cs) : cs.takeWhile Char.isDigit = [] := by
  cases cs with
  | nil => rfl
  | cons c cs => simp [h c rfl]

theorem fillNumbered_text {cs : List Char} (h : Placeholder.dollar.Spares cs) (vs : List Bound)
    {rest : List Char} (hrest : NoDigit rest) :
    fillNumbered vs 0 (cs ++ rest) = (fillNumbered vs 0 rest).map (cs.map .inl ++ ·) := by
  induction cs with
  | nil => simp
  | cons c cs ih =>
    have hno : ¬(c = '$' ∧ (cs ++ rest).takeWhile Char.isDigit ≠ []) := by
      rintro ⟨rfl, hne⟩
      apply hne
      cases cs with
      | nil => exact takeWhile_of_noDigit hrest
      | cons d cs => exact takeWhile_of_noDigit fun c hc => by cases hc; exact h [] d cs rfl
    have hcs : Placeholder.dollar.Spares cs := fun u d v huv => h (c :: u) d v (by rw [huv]; rfl)
    rw [List.cons_append, fillNumbered]
    simp only [if_neg hno]
    rw [ih hcs, Option.map_map]
    rfl

theorem fillNumbered_mark (vs : List Bound) (n : Nat) {rest : List Char} (hrest : NoDigit rest) :
    fillNumbered vs 0 (Placeholder.dollar.mark (n + 1) ++ rest) =
      (vs[n]?).bind fun v => (fillNumbered vs 0 rest).map (.inr v :: ·) := by
  have hdigits : (Nat.toDigits 10 (n + 1) ++ rest).takeWhile Char.isDigit = Nat.toDigits 10 (n + 1) := by
    rw [List.takeWhile_append_of_pos fun c hc => Nat.isDigit_of_mem_toDigits (by decide) (by decide) hc,
      takeWhile_of_noDigit hrest, List.append_nil]
  have hvalue : Text.Numeral.value (Nat.toDigits 10 (n + 1)) = n + 1 := Text.Numeral.value_digits (n + 1)
  rw [Placeholder.mark, List.cons_append, fillNumbered]
  simp only [hdigits]
  rw [if_pos ⟨trivial, Nat.toDigits_ne_nil⟩, hvalue, valueAt, fillNumbered_eq, List.drop_left]

theorem noDigit_weaveFrom (n : Nat) (tail : List (Param × List Char)) :
    NoDigit (weaveFrom id (fun i _ => Placeholder.dollar.mark i) n tail) := by
  intro c hc
  cases tail with
  | nil => cases hc
  | cons e tail =>
    cases hc
    decide

theorem fillNumbered_weaveFrom (vs : List Bound) (value : Param → Bound) (n : Nat)
    (tail : List (Param × List Char)) (hwhole : ∀ e ∈ tail, Stops e.2)
    (h : ∀ e ∈ tail, Placeholder.dollar.Spares e.2)
    (hvs : ∀ i, vs[n + i]? = (tail[i]?).map fun e => value e.1) :
    fillNumbered vs 0 (weaveFrom id (fun i _ => Placeholder.dollar.mark i) (n + 1) tail) =
      some (weaveFrom .inl (fun _ p => [.inr (value p)]) (n + 1) tail) := by
  induction tail generalizing n with
  | nil => rfl
  | cons e tail ih =>
    obtain ⟨p, cs⟩ := e
    have hrest := noDigit_weaveFrom (n + 1 + 1) tail
    have hcs : NoDigit (cs ++ weaveFrom id (fun i _ => Placeholder.dollar.mark i) (n + 1 + 1) tail) := by
      cases cs with
      | nil => exact hrest
      | cons d cs =>
        exact noDigit_of_stops (stops_cons.2 (stops_cons.1 (hwhole (p, d :: cs) List.mem_cons_self)))
    have hvalue : vs[n]? = some (value p) := hvs 0
    have htail := ih (n + 1) (fun e he => hwhole e (List.mem_cons_of_mem _ he))
      (fun e he => h e (List.mem_cons_of_mem _ he)) fun i => by
        rw [Nat.add_assoc, Nat.add_comm 1 i]
        exact hvs (i + 1)
    rw [weaveFrom, List.map_id, fillNumbered_mark vs n hcs, hvalue,
      fillNumbered_text (h (p, cs) List.mem_cons_self) vs hrest, htail]
    rfl

/-- **A driver** that takes whatever looks like a mark for a place fills in the same values. -/
theorem Proper.fill {k : Cutting} (hk : k.Proper) (value : Param → Bound) (style : Placeholder)
    (h : ∀ cs ∈ k.texts, style.Spares cs) :
    style.fill (k.params.map value) (k.sql style) = some (k.substituted value) := by
  have hhead := h k.head List.mem_cons_self
  have htail : ∀ e ∈ k.tail, style.Spares e.2 := fun e he =>
    h e.2 (List.mem_cons_of_mem _ (List.mem_map_of_mem he))
  rw [sql, weave, List.map_id, substituted, weave]
  cases style with
  | question =>
    have hvalues : k.params.map value = k.tail.map fun e => value e.1 := List.map_map
    rw [Placeholder.fill, hvalues, fillNext_text hhead, fillNext_weaveFrom value 1 k.tail htail]
    rfl
  | dollar =>
    have hvs : ∀ i, (k.params.map value)[0 + i]? = (k.tail[i]?).map fun e => value e.1 := by
      intro i
      rw [Nat.zero_add, params, List.map_map, List.getElem?_map]
      rfl
    rw [Placeholder.fill, fillNumbered_text hhead _ (noDigit_weaveFrom 1 k.tail),
      fillNumbered_weaveFrom _ value 0 k.tail hk.whole htail hvs]
    rfl

end Cutting

/-- **Statements of templates**: a template is cut at its parameters in one way. For both styles, the
statement has the texts with marks between them that count from one, and lists the parameters in order,
so that the value at each place is that of its parameter. To bind the values by their places is to put
the value of each parameter in the place of its mention. So does a driver that takes whatever looks like
a mark for a place, if nothing in the texts does. -/
theorem render_cuts (template : String) :
    ∃ k : Cutting, k.Proper ∧ k.template = template.toList ∧
      (∀ k' : Cutting, k'.Proper → k'.template = template.toList → k' = k) ∧
      ∀ style : Placeholder,
        (Statement.render style template).sql.toList = k.sql style ∧
        (Statement.render style template).params = k.params ∧
        ∀ (t : Terms) (holder : String) (now : Instant),
          let values : List Bound := (Statement.render style template).values t holder now
          (∀ i : Nat, values[i]? = (k.tail[i]?).map fun e : Param × List Char => e.1.bound t holder now) ∧
          k.bound values = k.substituted (·.bound t holder now) ∧
          ((∀ cs ∈ k.texts, style.Spares cs) →
            style.fill values (k.sql style) = some (k.substituted (·.bound t holder now))) := by
  obtain ⟨k, hk, htemplate⟩ := Cutting.exists_proper template.toList
  refine ⟨k, hk, htemplate, fun k' hk' hk't => ?_, fun style => ?_⟩
  · rw [hk'.eq_ofPieces, hk.eq_ofPieces, hk't, htemplate]
  · have hrender := hk.render style
    rw [htemplate, String.ofList_toList] at hrender
    rw [hrender]
    refine ⟨String.toList_ofList, rfl, fun t holder now => ⟨fun i => ?_, ?_, ?_⟩⟩
    · simp only [Statement.values, Cutting.params, List.getElem?_map, Option.map_map]
      rfl
    · exact k.bound_eq_substituted _
    · exact hk.fill _ style

end LeaseLock.Sql
