import LeaseLock.Proofs.Rendering
import LeaseLock.Sql.Database

/-!
# Names of a schema in statements

Whether the names of the table and of its columns come through to the statements as they are, and
whether statements have the parameters that they should have.

## The model

The templates are the texts of sixteen layouts, one for each dialect and kind of call, and the layouts
do not depend on the schema. `Layout.verbatim` is what is wanted of one: the words and the names as they
are, a mark in the place of each parameter and for nothing else, and the parameters of the layout in
order. `Dialect.params` lists these. The statements themselves are made from the text of a layout, by a
reader that does not know any more what in it is a name.

## What is proved

`names_verbatim_iff`: a statement is what is wanted of it exactly if no name in it mentions a parameter,
as `locks:now` does. Otherwise, its text and its parameters are both different. Nothing else can go
wrong: a name does not merge with the words around it, as its neighbours keep it apart (`isSpaced`), and
the words mention no parameter themselves (`isPlain`).
-/

namespace LeaseLock.Sql

variable {s : Schema} {style : Placeholder} {a b cs : List Char} {l : Layout}

/-! ### Texts that mention a parameter -/

/-- A parameter is mentioned in the text: a colon and a name of a parameter that ends there. -/
def Mentions (cs : List Char) : Prop :=
  ∃ (u : List Char) (p : Param) (v : List Char), cs = u ++ (p.mentionChars ++ v) ∧ Stops v

theorem Mentions.elim (h : ¬Mentions cs) :
    ∀ (u : List Char) (p : Param) (v : List Char), cs = u ++ (p.mentionChars ++ v) → ¬Stops v :=
  fun u p v hcs hv => h ⟨u, p, v, hcs, hv⟩

/-- A text that mentions no parameter is read as it is. -/
theorem pieces_of_not_mentions (h : ¬Mentions cs) : pieces cs = cs.map .char := by
  have hread := pieces_text stops_nil (Mentions.elim h)
  rw [List.append_nil] at hread
  exact hread.trans (List.append_nil _)

/-- In any other one, a parameter is found, and it stands in the place of a colon. -/
theorem pieces_of_mentions (h : Mentions cs) :
    ∃ (u v : List Char) (p : Param) (q : List Piece),
      pieces cs = u.map .char ++ .param p :: q ∧ cs = u ++ ':' :: v := by
  obtain ⟨k, hk, rfl⟩ := Cutting.exists_proper cs
  obtain ⟨head, tail⟩ := k
  cases tail with
  | nil =>
    -- Nothing is cut, so the text is all there is.
    obtain ⟨u, p, v, huv, hv⟩ := h
    have hhead : Cutting.template ⟨head, []⟩ = head := by
      simp [Cutting.template, Cutting.weave, Cutting.weaveFrom]
    rw [hhead] at huv
    exact absurd hv (hk.clean head List.mem_cons_self u p v huv)
  | cons e tail =>
    obtain ⟨p, after⟩ := e
    have htemplate : Cutting.template ⟨head, (p, after) :: tail⟩ = head ++ (':' :: (p.token.toList ++
        (after ++ Cutting.weaveFrom id (fun _ p => p.mentionChars) 2 tail))) := by
      simp [Cutting.template, Cutting.weave, Cutting.weaveFrom, Param.mentionChars]
    exact ⟨head, _, p, _, hk.pieces_template, htemplate⟩

theorem params_append (ps qs : List Piece) :
    Piece.params (ps ++ qs) = Piece.params ps ++ Piece.params qs := by
  induction ps with
  | nil => rfl
  | cons x ps ih =>
    cases x with
    | char c => exact ih
    | param p => simp only [List.cons_append, Piece.params, ih]

theorem params_pieces_eq_nil_iff : Piece.params (pieces cs) = [] ↔ ¬Mentions cs := by
  constructor
  · intro hnil hm
    obtain ⟨u, v, p, q, hpieces, -⟩ := pieces_of_mentions hm
    rw [hpieces, Cutting.params_chars] at hnil
    cases hnil
  · intro hm
    have hchars := Cutting.params_chars cs []
    rw [List.append_nil] at hchars
    rw [pieces_of_not_mentions hm, hchars, Piece.params]

/-! ### Texts one after the other -/

theorem piecesFrom_append (hb : Stops b) {n : Nat} (hn : n ≤ a.length) :
    piecesFrom n (a ++ b) = piecesFrom n a ++ pieces b := by
  induction a generalizing n with
  | nil =>
    obtain rfl := Nat.le_zero.1 hn
    rfl
  | cons c a ih =>
    cases n with
    | succ n => exact ih (Nat.le_of_succ_le_succ hn)
    | zero =>
      simp only [List.cons_append, piecesFrom, takeWhile_append_of_stops a hb]
      split
      · split
        · rw [ih (List.takeWhile_prefix isWordChar).length_le, List.cons_append]
        · rw [ih (Nat.zero_le _), List.cons_append]
      · rw [ih (Nat.zero_le _), List.cons_append]

/-- **Two texts are read one after the other** if no name goes on in the second one. -/
theorem pieces_append (a : List Char) (hb : Stops b) : pieces (a ++ b) = pieces a ++ pieces b :=
  piecesFrom_append hb (Nat.zero_le _)

/-- So they are if the first one ends with a character that begins no mention and is in none. -/
theorem pieces_append_of_closed (a b : List Char) {c : Char} (hw : isWordChar c = false) (hc : c ≠ ':') :
    pieces ((a ++ [c]) ++ b) = pieces (a ++ [c]) ++ pieces b := by
  have hchar (rest : List Char) : pieces (c :: rest) = .char c :: pieces rest :=
    pieces_cons_char fun h => absurd h hc
  have hfirst : pieces (a ++ [c]) = pieces a ++ [.char c] := by
    rw [pieces_append a (stops_cons.2 hw), hchar]
    rfl
  rw [hfirst, List.append_assoc, List.append_assoc]
  exact (pieces_append a (stops_cons.2 hw)).trans (congrArg _ (hchar b))

/-! ### The parts of a layout -/

namespace Part

/-- The pieces of a part alone. -/
def pieces (s : Schema) : Part → List Piece
  | param p => [.param p]
  | x => Sql.pieces (x.text s).toList

/-- No name goes on in the part, whatever the schema. -/
def stops : Part → Bool
  | words w => w.toList.head?.any fun c => !isWordChar c
  | param _ => true
  | table | column _ => false

/-- The part ends with a character that begins no mention and is in none. -/
def closes : Part → Bool
  | words w => w.toList.getLast?.any fun c => !isWordChar c && c ≠ ':'
  | table | column _ | param _ => false

/-- The words mention no parameter. -/
def isPlain : Part → Bool
  | words w => (Piece.params (Sql.pieces w.toList)).isEmpty
  | table | column _ | param _ => true

theorem stops_text {x : Part} (h : x.stops = true) (rest : List Char) :
    Stops ((x.text s).toList ++ rest) := by
  cases x with
  | words w =>
    obtain ⟨c, hc, hw⟩ := (Option.any_eq_true _ _).1 h
    obtain ⟨cs, hcs⟩ := List.head?_eq_some_iff.1 hc
    rw [text, hcs, List.cons_append, stops_cons]
    simpa using hw
  | param p =>
    rw [text, Param.mention, String.toList_append]
    exact stops_cons.2 (by decide)
  | table | column _ => cases h

theorem pieces_append_of_closes {x : Part} (h : x.closes = true) (rest : List Char) :
    Sql.pieces ((x.text s).toList ++ rest) = x.pieces s ++ Sql.pieces rest := by
  cases x with
  | words w =>
    obtain ⟨c, hc, hw⟩ := (Option.any_eq_true _ _).1 h
    obtain ⟨cs, hcs⟩ := List.getLast?_eq_some_iff.1 hc
    simp only [Bool.and_eq_true, Bool.not_eq_true', decide_eq_true_eq] at hw
    show Sql.pieces (w.toList ++ rest) = Sql.pieces w.toList ++ Sql.pieces rest
    rw [hcs]
    exact pieces_append_of_closed cs rest hw.1 hw.2
  | table | column _ | param _ => cases h

theorem pieces_append_of_stops (x : Part) {rest : List Char} (h : Stops rest) :
    Sql.pieces ((x.text s).toList ++ rest) = x.pieces s ++ Sql.pieces rest := by
  cases x with
  | param p =>
    rw [text, Param.mention, String.toList_append]
    exact pieces_mention p h
  | words _ | table | column _ => exact pieces_append _ h

end Part

/-- The name that a part is. -/
def Part.name? (s : Schema) : Part → Option String
  | table => some s.tableName
  | column c => some (s.column c)
  | words _ | param _ => none

namespace Layout

/-- Any two parts are kept apart: a name or a parameter stands between words only. -/
def isSpaced : Layout → Bool
  | [] => true
  | x :: l => l.head?.all (fun y => x.closes || y.stops) && isSpaced l

/-- **The text of a layout** is read part by part. -/
theorem pieces_text (h : l.isSpaced = true) :
    pieces (l.text s).toList = l.flatMap (Part.pieces s) := by
  induction l with
  | nil => rfl
  | cons x l ih =>
    rw [isSpaced, Bool.and_eq_true] at h
    obtain ⟨hx, hl⟩ := h
    rw [text, String.toList_append, List.flatMap_cons, ← ih hl]
    cases l with
    | nil => exact x.pieces_append_of_stops stops_nil
    | cons y l =>
      rcases Bool.or_eq_true _ _ ▸ hx with hcloses | hstops
      · exact Part.pieces_append_of_closes hcloses _
      · refine x.pieces_append_of_stops ?_
        rw [text, String.toList_append]
        exact Part.stops_text hstops _

/-! ### What is wanted of a layout -/

/-- The parameters, in order. -/
def params : Layout → List Param
  | [] => []
  | .param p :: l => p :: params l
  | .words _ :: l | .table :: l | .column _ :: l => params l

/-- The words and the names as they are, with marks for the parameters, of which `n` came before. -/
def sqlFrom (style : Placeholder) (s : Schema) (n : Nat) : Layout → List Char
  | [] => []
  | .param _ :: l => style.mark (n + 1) ++ sqlFrom style s (n + 1) l
  | .words w :: l => w.toList ++ sqlFrom style s n l
  | .table :: l => s.tableName.toList ++ sqlFrom style s n l
  | .column c :: l => (s.column c).toList ++ sqlFrom style s n l

/-- The statement that is wanted. -/
def verbatim (style : Placeholder) (s : Schema) (l : Layout) : Statement :=
  ⟨String.ofList (l.sqlFrom style s 0), l.params⟩

/-- No name mentions a parameter. -/
def Unmistakable (s : Schema) (l : Layout) : Prop :=
  ∀ x ∈ l, ∀ n, x.name? s = some n → ¬Mentions n.toList

theorem unmistakable_cons {x : Part} : Unmistakable s (x :: l) ↔
    (∀ n, x.name? s = some n → ¬Mentions n.toList) ∧ Unmistakable s l :=
  List.forall_mem_cons

/-- A part that is no name is out of question. -/
theorem unmistakable_cons_of_none {x : Part} (h : x.name? s = none) :
    Unmistakable s (x :: l) ↔ Unmistakable s l := by
  rw [unmistakable_cons, h]
  exact and_iff_right fun n hn => nomatch hn

theorem unmistakable_cons_of_some {x : Part} {n : String} (h : x.name? s = some n) :
    Unmistakable s (x :: l) ↔ ¬Mentions n.toList ∧ Unmistakable s l := by
  simp [unmistakable_cons, h]

/-! ### What comes of it -/

/-- A mark does not begin with a colon. -/
theorem mark_append_ne (style : Placeholder) (n : Nat) (a b : List Char) :
    style.mark n ++ a ≠ ':' :: b := by
  cases style <;> exact fun h => absurd (List.head_eq_of_cons_eq h) (by decide)

/-- The text that a name comes to, with more behind it. -/
theorem text_name_iff (n : Nat) (name : String) (ps : List Piece) (rest : List Char) :
    Piece.text style n (pieces name.toList ++ ps) = name.toList ++ rest ↔
      ¬Mentions name.toList ∧ Piece.text style n ps = rest := by
  by_cases hm : Mentions name.toList
  · obtain ⟨u, v, p, q, hpieces, hname⟩ := pieces_of_mentions hm
    rw [hpieces, List.append_assoc, Cutting.text_chars, hname, List.append_assoc,
      List.append_cancel_left_eq]
    exact iff_of_false (mark_append_ne _ _ _ _) fun h => h.1 (hname ▸ hm)
  · rw [pieces_of_not_mentions hm, Cutting.text_chars, List.append_cancel_left_eq]
    exact (and_iff_right hm).symm

theorem text_iff (h : l.all Part.isPlain = true) (n : Nat) :
    Piece.text style n (l.flatMap (Part.pieces s)) = l.sqlFrom style s n ↔ l.Unmistakable s := by
  induction l generalizing n with
  | nil => exact iff_of_true rfl fun _ h => nomatch h
  | cons x l ih =>
    rw [List.all_cons, Bool.and_eq_true] at h
    obtain ⟨hx, hl⟩ := h
    rw [List.flatMap_cons]
    cases x with
    | param p =>
      show style.mark (n + 1) ++ _ = style.mark (n + 1) ++ _ ↔ _
      rw [List.append_cancel_left_eq, unmistakable_cons_of_none rfl]
      exact ih hl (n + 1)
    | words w =>
      have hplain : ¬Mentions w.toList := params_pieces_eq_nil_iff.1 (List.isEmpty_iff.1 hx)
      rw [unmistakable_cons_of_none rfl, ← ih hl n]
      exact (text_name_iff n w _ _).trans (and_iff_right hplain)
    | table =>
      rw [unmistakable_cons_of_some rfl, ← ih hl n]
      exact text_name_iff n _ _ _
    | column c =>
      rw [unmistakable_cons_of_some rfl, ← ih hl n]
      exact text_name_iff n _ _ _

/-- No parameter of a layout is missed. -/
theorem params_sublist (s : Schema) (l : Layout) :
    l.params.Sublist (Piece.params (l.flatMap (Part.pieces s))) := by
  induction l with
  | nil => exact .slnil
  | cons x l ih =>
    rw [List.flatMap_cons, params_append]
    cases x with
    | param p => exact ih.cons_cons p
    | words _ | table | column _ => exact ih.trans (List.sublist_append_right _ _)

/-- The parameters that a name comes to, with more behind them. -/
theorem params_name_iff {name : String} {ps : List Piece} {qs : List Param}
    (h : qs.Sublist (Piece.params ps)) :
    Piece.params (pieces name.toList ++ ps) = qs ↔
      ¬Mentions name.toList ∧ Piece.params ps = qs := by
  rw [params_append, ← params_pieces_eq_nil_iff]
  constructor
  · intro heq
    have hlen := congrArg List.length heq
    rw [List.length_append] at hlen
    have hle := h.length_le
    have hnil : Piece.params (pieces name.toList) = [] := List.length_eq_zero_iff.1 (by omega)
    rw [hnil, List.nil_append] at heq
    exact ⟨hnil, heq⟩
  · rintro ⟨hnil, heq⟩
    rw [hnil, List.nil_append, heq]

theorem params_iff (h : l.all Part.isPlain = true) :
    Piece.params (l.flatMap (Part.pieces s)) = l.params ↔ l.Unmistakable s := by
  induction l with
  | nil => exact iff_of_true rfl fun _ h => nomatch h
  | cons x l ih =>
    rw [List.all_cons, Bool.and_eq_true] at h
    obtain ⟨hx, hl⟩ := h
    have hsub := params_sublist s l
    rw [List.flatMap_cons]
    cases x with
    | param p =>
      show p :: _ = p :: _ ↔ _
      rw [List.cons.injEq, and_iff_right rfl, unmistakable_cons_of_none rfl]
      exact ih hl
    | words w =>
      have hplain : ¬Mentions w.toList := params_pieces_eq_nil_iff.1 (List.isEmpty_iff.1 hx)
      rw [unmistakable_cons_of_none rfl, ← ih hl]
      exact (params_name_iff hsub).trans (and_iff_right hplain)
    | table =>
      rw [unmistakable_cons_of_some rfl, ← ih hl]
      exact params_name_iff hsub
    | column c =>
      rw [unmistakable_cons_of_some rfl, ← ih hl]
      exact params_name_iff hsub

end Layout

/-! ### The sixteen statements -/

/-- The statement for a call of a kind. -/
def Statements.ofKind (x : Statements) : CallKind → Statement
  | .insert => x.insert
  | .claim => x.claim
  | .release => x.release
  | .extend => x.extend

namespace Dialect

/-- The layout of the statement for a call of a kind. -/
def layout (d : Dialect) (k : CallKind) : Layout := (d.commands.ofKind k).layout d

/-- The parameters of the statement for a call of a kind. -/
def params : Dialect → CallKind → List Param
  | generic, .insert => [.name, .lockUntil, .now, .lockedBy]
  | generic, .claim => [.lockUntil, .now, .lockedBy, .name, .now]
  | generic, .release => [.unlockTime, .name]
  | generic, .extend => [.lockUntil, .name, .lockedBy, .now]
  | _, .insert => [.name, .atMostMicros, .lockedBy]
  | _, .claim => [.atMostMicros, .lockedBy, .name]
  | mysql, .release => [.atLeastMicros, .atLeastMicros, .name, .lockedBy]
  | _, .release => [.atLeastMicros, .name, .lockedBy]
  | _, .extend => [.atMostMicros, .name, .lockedBy]

theorem params_layout (d : Dialect) (k : CallKind) : (d.layout k).params = d.params k := by
  cases d <;> cases k <;> rfl

theorem isSpaced_layout (d : Dialect) (k : CallKind) : (d.layout k).isSpaced = true := by
  cases d <;> cases k <;> decide

theorem isPlain_layout (d : Dialect) (k : CallKind) : (d.layout k).all Part.isPlain = true := by
  cases d <;> cases k <;> decide

end Dialect

theorem ofKind_make (d : Dialect) (s : Schema) (style : Placeholder) (k : CallKind) :
    (Statements.make d s style).ofKind k = .render style ((d.layout k).text s) := by
  cases k <;> rfl

/-- The statement of a call, with what its text and its parameters come to. -/
theorem make_iff (d : Dialect) (s : Schema) (style : Placeholder) (k : CallKind) :
    (((Statements.make d s style).ofKind k).sql = ((d.layout k).verbatim style s).sql ↔
      (d.layout k).Unmistakable s) ∧
    (((Statements.make d s style).ofKind k).params = d.params k ↔ (d.layout k).Unmistakable s) := by
  have hpieces := Layout.pieces_text (s := s) (d.isSpaced_layout k)
  have hplain := d.isPlain_layout k
  rw [ofKind_make, Statement.render, hpieces, ← d.params_layout k]
  exact ⟨String.ofList_inj.trans (Layout.text_iff hplain 0), Layout.params_iff hplain⟩

/-- An insertion has all the names. -/
theorem mem_layout_insert (d : Dialect) :
    Part.table ∈ d.layout .insert ∧ ∀ c, Part.column c ∈ d.layout .insert := by
  cases d <;> exact ⟨by decide, fun c => by cases c <;> decide⟩

/-- The schemas that the database can work with have no name that mentions a parameter. -/
theorem isFreeOfParams_iff (s : Schema) :
    s.isFreeOfParams = true ↔ ¬Mentions s.tableName.toList ∧ ∀ c, ¬Mentions (s.column c).toList := by
  simp only [Schema.isFreeOfParams, List.all_cons, Bool.and_eq_true, List.isEmpty_iff,
    params_pieces_eq_nil_iff, List.all_eq_true, List.forall_mem_map]
  refine and_congr_right fun _ => ⟨fun h c => h c ?_, fun h c _ => h c⟩
  cases c <;> decide

/-- All statements are unmistakable if an insertion is. -/
theorem unmistakable_iff (d : Dialect) (s : Schema) :
    (∀ k, (d.layout k).Unmistakable s) ↔ s.isFreeOfParams = true := by
  rw [isFreeOfParams_iff]
  constructor
  · intro h
    obtain ⟨htable, hcolumn⟩ := mem_layout_insert d
    exact ⟨h .insert _ htable _ rfl, fun c => h .insert _ (hcolumn c) _ rfl⟩
  · rintro ⟨htable, hcolumn⟩ k x - n hn
    cases x with
    | table => cases hn; exact htable
    | column c => cases hn; exact hcolumn c
    | words _ | param _ => cases hn

/-- **Names come through as they are** exactly if they mention no parameter. For every dialect, style
of marks and kind of call, a statement has the words of the layout and the names of the schema as they
are, with a mark for each parameter of the call and no others, exactly if no name in it mentions a
parameter; else its text is another one, and so is the list of its parameters. For all four statements,
it takes that no name of the schema does. -/
theorem names_verbatim_iff (d : Dialect) (s : Schema) (style : Placeholder) :
    (∀ k : CallKind,
      let made : Statement := (Statements.make d s style).ofKind k
      let wanted : Statement := (d.layout k).verbatim style s
      wanted.params = d.params k ∧
      (made = wanted ↔ (d.layout k).Unmistakable s) ∧
      (made.sql = wanted.sql ↔ (d.layout k).Unmistakable s) ∧
      (made.params = d.params k ↔ (d.layout k).Unmistakable s)) ∧
    ((∀ k : CallKind, (Statements.make d s style).ofKind k = (d.layout k).verbatim style s) ↔
      ¬Mentions s.tableName.toList ∧ ∀ c, ¬Mentions (s.column c).toList) := by
  have hmade (k : CallKind) : (Statements.make d s style).ofKind k = (d.layout k).verbatim style s ↔
      (d.layout k).Unmistakable s := by
    obtain ⟨hsql, hparams⟩ := make_iff d s style k
    constructor
    · intro h
      exact hsql.1 (by rw [h])
    · intro h
      have hp : ((Statements.make d s style).ofKind k).params = (d.layout k).params := by
        rw [hparams.2 h, d.params_layout k]
      exact Statement.ext (hsql.2 h) hp
  refine ⟨fun k => ⟨d.params_layout k, hmade k, make_iff d s style k⟩, ?_⟩
  rw [← isFreeOfParams_iff, ← unmistakable_iff d s]
  exact forall_congr' hmade

/-- A schema whose column of names is a quoted identifier with a colon in it. -/
def quoted : Schema := { name := "\"job:name\"" }

/-- The end of that identifier is taken for a parameter, so the statement that gives a lease back has
three places instead of two and speaks of another column. -/
theorem release_of_quoted :
    let made : Statement := (Statements.make .generic quoted .question).release
    let wanted : Statement := (Dialect.layout .generic .release).verbatim .question quoted
    wanted = ⟨"UPDATE shedlock SET lock_until = ? WHERE \"job:name\" = ?", [.unlockTime, .name]⟩ ∧
      made = ⟨"UPDATE shedlock SET lock_until = ? WHERE \"job?\" = ?", [.unlockTime, .name, .name]⟩ ∧
      ¬(Dialect.layout .generic .release).Unmistakable quoted := by
  intro made wanted
  have hwanted : wanted =
      ⟨"UPDATE shedlock SET lock_until = ? WHERE \"job:name\" = ?", [.unlockTime, .name]⟩ := by
    decide +kernel
  have hmade : made =
      ⟨"UPDATE shedlock SET lock_until = ? WHERE \"job?\" = ?", [.unlockTime, .name, .name]⟩ := by
    decide +kernel
  refine ⟨hwanted, hmade, fun h => ?_⟩
  have hsame : made = wanted :=
    ((names_verbatim_iff .generic quoted .question).1 .release).2.1.2 h
  rw [hmade, hwanted] at hsame
  exact absurd hsame (by decide)

end LeaseLock.Sql
