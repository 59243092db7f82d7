import Reckoner.Json.Document
import Reckoner.Proofs.Scanning

/-!
# Replies are read back from their JSON text

`Parses` says of some pieces that they make a document wherever they stand. It goes over from items
to a list (`Parses.list`) and from fields to an object (`Parses.object`), so that an object that was
written is decoded as its fields (`parse?_objectPieces`). For the fields of a reply this gives the
reply back (`readsBack`).
-/

namespace Reckoner

namespace Json

/-- Wherever the pieces stand, they make this document. -/
def Parses (ps : List Piece) (d : Document) : Prop :=
  ∀ fuel rest, ps.length ≤ fuel → value? fuel (ps ++ rest) = some (d, rest)

section Parsing

variable {α : Type} {pieces : α → List Piece} {document : α → Document} {items : List α}

theorem intercalate_map_cons_cons (pieces : α → List Piece) (i j : α) (items : List α) :
    [Piece.mark ','].intercalate ((i :: j :: items).map pieces) =
      pieces i ++ .mark ',' :: [Piece.mark ','].intercalate ((j :: items).map pieces) := by
  simp

theorem items?_bracket (fuel : Nat) (rest : List Piece) :
    items? fuel (.mark ']' :: rest) = none := by
  cases fuel with
  | zero => rfl
  | succ fuel => cases fuel <;> rfl

theorem items?_intercalate (hne : items ≠ []) (h : ∀ i ∈ items, Parses (pieces i) (document i))
    {fuel : Nat} (hfuel : ([Piece.mark ','].intercalate (items.map pieces)).length < fuel)
    (rest : List Piece) :
    items? fuel ([Piece.mark ','].intercalate (items.map pieces) ++ .mark ']' :: rest) =
      some (items.map document, rest) := by
  induction items generalizing fuel with
  | nil => exact absurd rfl hne
  | cons i items ih =>
    obtain ⟨hi, hitems⟩ := List.forall_mem_cons.mp h
    obtain ⟨fuel, rfl⟩ : ∃ n, fuel = n + 1 := ⟨fuel - 1, by omega⟩
    cases items with
    | nil =>
      simp only [List.map_cons, List.map_nil, List.intercalate_singleton] at hfuel ⊢
      simp only [items?, hi fuel _ (Nat.le_of_lt_succ hfuel)]
    | cons j items =>
      rw [intercalate_map_cons_cons, List.length_append, List.length_cons] at hfuel
      rw [intercalate_map_cons_cons, List.append_assoc, List.cons_append]
      have hlt : ([Piece.mark ','].intercalate ((j :: items).map pieces)).length < fuel := by omega
      have hrest := ih (List.cons_ne_nil j items) hitems hlt
      simp only [items?, hi fuel _ (by omega), hrest]
      rfl

theorem value?_list {fuel : Nat} {ps rest : List Piece} {ds : List Document}
    (h : items? fuel ps = some (ds, rest)) :
    value? (fuel + 1) (.mark '[' :: ps) = some (.list ds, rest) := by
  cases ps with
  | nil => simp [value?, h]
  | cons p ps =>
    have hp : p ≠ .mark ']' := by
      rintro rfl
      rw [items?_bracket] at h
      cases h
    simp [value?, h, hp]

theorem Parses.list (h : ∀ i ∈ items, Parses (pieces i) (document i)) :
    Parses (.mark '[' :: ([Piece.mark ','].intercalate (items.map pieces) ++ [.mark ']']))
      (.list (items.map document)) := by
  intro fuel rest hfuel
  rw [List.length_cons, List.length_append, List.length_singleton] at hfuel
  obtain ⟨fuel, rfl⟩ : ∃ n, fuel = n + 1 := ⟨fuel - 1, by omega⟩
  by_cases hne : items = []
  · subst hne
    rfl
  · rw [List.cons_append, List.append_assoc]
    exact value?_list (items?_intercalate hne h (by omega) rest)

variable {key : α → String}

theorem fields?_brace (fuel : Nat) (rest : List Piece) :
    fields? fuel (.mark '\x7d' :: rest) = none := by
  cases fuel <;> rfl

theorem fields?_intercalate (hne : items ≠ []) (h : ∀ i ∈ items, Parses (pieces i) (document i))
    {fuel : Nat} (hfuel : ([Piece.mark ','].intercalate
      (items.map fun i => .text (key i) :: .mark ':' :: pieces i)).length < fuel)
    (rest : List Piece) :
    fields? fuel ([Piece.mark ','].intercalate
      (items.map fun i => .text (key i) :: .mark ':' :: pieces i) ++ .mark '\x7d' :: rest) =
      some (items.map fun i => (key i, document i), rest) := by
  induction items generalizing fuel with
  | nil => exact absurd rfl hne
  | cons i items ih =>
    obtain ⟨hi, hitems⟩ := List.forall_mem_cons.mp h
    obtain ⟨fuel, rfl⟩ : ∃ n, fuel = n + 1 := ⟨fuel - 1, by omega⟩
    cases items with
    | nil =>
      simp only [List.map_cons, List.map_nil, List.intercalate_singleton,
        List.length_cons] at hfuel ⊢
      simp only [List.cons_append, fields?, hi fuel _ (by omega)]
    | cons j items =>
      rw [intercalate_map_cons_cons, List.length_append, List.length_cons, List.length_cons,
        List.length_cons] at hfuel
      rw [intercalate_map_cons_cons, List.append_assoc, List.cons_append]
      have hlt : ([Piece.mark ','].intercalate ((j :: items).map fun i =>
          .text (key i) :: .mark ':' :: pieces i)).length < fuel := by omega
      have hrest := ih (List.cons_ne_nil j items) hitems hlt
      simp only [List.cons_append, fields?, hi fuel _ (by omega), hrest]
      rfl

theorem value?_object {fuel : Nat} {ps rest : List Piece} {fields : List (String × Document)}
    (h : fields? fuel ps = some (fields, rest)) :
    value? (fuel + 1) (.mark '\x7b' :: ps) = some (.object fields, rest) := by
  cases ps with
  | nil => simp [value?, h]
  | cons p ps =>
    have hp : p ≠ .mark '\x7d' := by
      rintro rfl
      rw [fields?_brace] at h
      cases h
    simp [value?, h, hp]

theorem Parses.object (h : ∀ i ∈ items, Parses (pieces i) (document i)) :
    Parses (.mark '\x7b' :: ([Piece.mark ','].intercalate
      (items.map fun i => .text (key i) :: .mark ':' :: pieces i) ++ [.mark '\x7d']))
      (.object (items.map fun i => (key i, document i))) := by
  intro fuel rest hfuel
  rw [List.length_cons, List.length_append, List.length_singleton] at hfuel
  obtain ⟨fuel, rfl⟩ : ∃ n, fuel = n + 1 := ⟨fuel - 1, by omega⟩
  by_cases hne : items = []
  · subst hne
    rfl
  · rw [List.cons_append, List.append_assoc]
    exact value?_object (fields?_intercalate hne h (by omega) rest)

/-- A piece that is a document on its own. -/
theorem Parses.leaf {p : Piece} {d : Document}
    (h : ∀ fuel rest, value? (fuel + 1) (p :: rest) = some (d, rest)) : Parses [p] d := by
  intro fuel rest hfuel
  obtain ⟨fuel, rfl⟩ : ∃ n, fuel = n + 1 := ⟨fuel - 1, by simp at hfuel; omega⟩
  exact h fuel rest

end Parsing

section Values

def numberDocument (x : Float) : Document :=
  match jsonText? x with
  | some _ => .number x
  | none => .text (nonFinite (.ofFloat x))

/-- What a value is as a document. -/
def Value.document : Value → Document
  | flag value => .flag value
  | number value => numberDocument value
  | text value => .text value
  | texts items => .list (items.map .text)

theorem parses_value (v : Value) : Parses v.pieces v.document := by
  cases v with
  | flag value => exact .leaf fun _ _ => rfl
  | number value =>
    simp only [Value.pieces, Value.document, numberPiece, numberDocument]
    cases jsonText? value with
    | some text => exact .leaf fun _ _ => rfl
    | none => exact .leaf fun _ _ => rfl
  | text value => exact .leaf fun _ _ => rfl
  | texts items => exact .list fun _ _ => .leaf fun _ _ => rfl

theorem parse?_objectPieces (fields : List (String × Value)) :
    parse? (objectPieces fields) =
      some (.object (fields.map fun field => (field.1, field.2.document))) := by
  have hobject : Parses (objectPieces fields)
      (.object (fields.map fun field => (field.1, field.2.document))) :=
    .object fun field _ => parses_value field.2
  have hvalue := hobject (objectPieces fields).length [] (Nat.le_refl _)
  rw [List.append_nil] at hvalue
  rw [parse?, hvalue]

open Binary64 in
/-- A number is read back from its digits, or from its word if it is not finite. -/
theorem number?_numberDocument (x : Float) : (numberDocument x).number? = some x := by
  cases h : jsonText? x with
  | some text =>
    simp only [numberDocument, h]
    rfl
  | none =>
    simp only [numberDocument, h]
    have hnan : nonFinite (.ofFloat notANumber) = "NaN" := by decide +kernel
    have hpositive : nonFinite (.ofFloat infinity) = "Infinity" := by decide +kernel
    have hnegative : nonFinite (.ofFloat (-infinity)) = "-Infinity" := by decide +kernel
    rcases not_finite_of_jsonText? h with rfl | rfl | rfl
    · rw [hnan]
      rfl
    · rw [hpositive]
      rfl
    · rw [hnegative]
      rfl

theorem texts?_list (items : List String) :
    (Document.list (items.map .text)).texts? = some items := by
  show (items.map Document.text).mapM Document.text? = some items
  induction items with
  | nil => rfl
  | cons s items ih => simp [List.mapM_cons, ih, Document.text?]

theorem null_not_mem_intercalate {α : Type} {pieces : α → List Piece} {items : List α}
    (h : ∀ i ∈ items, .null ∉ pieces i) :
    .null ∉ [Piece.mark ','].intercalate (items.map pieces) := by
  induction items with
  | nil => exact List.not_mem_nil
  | cons i items ih =>
    obtain ⟨hi, hitems⟩ := List.forall_mem_cons.mp h
    cases items with
    | nil => simpa using hi
    | cons j items =>
      rw [intercalate_map_cons_cons]
      simp only [List.mem_append, List.mem_cons, not_or, reduceCtorEq, not_false_eq_true, true_and]
      exact ⟨hi, ih hitems⟩

theorem null_not_mem_pieces (v : Value) : .null ∉ v.pieces := by
  cases v with
  | flag value => simp [Value.pieces]
  | number value =>
    simp only [Value.pieces, numberPiece]
    cases jsonText? value <;> simp
  | text value => simp [Value.pieces]
  | texts items =>
    have hitems : .null ∉ [Piece.mark ','].intercalate (items.map fun s => [Piece.text s]) :=
      null_not_mem_intercalate (by simp)
    simpa [Value.pieces] using hitems

theorem null_not_mem_objectPieces (fields : List (String × Value)) :
    .null ∉ objectPieces fields := by
  have hfields : .null ∉ [Piece.mark ','].intercalate (fields.map fieldPieces) :=
    null_not_mem_intercalate fun field _ => by simp [fieldPieces, null_not_mem_pieces]
  simpa [objectPieces] using hfields

end Values

end Json

namespace Reply

open Json

/-- From the fields that a reply is written with, the reply is read back. -/
theorem ofFields?_document (r : Reply) :
    ofFields? (r.fields.map fun field => (field.1, field.2.document)) = some r := by
  cases r with
  | evaluated expression steps result =>
    simp [fields, ofFields?, Parts.ofFields?, field?, List.lookup_cons, Value.document,
      Document.flag?, Document.text?, texts?_list, number?_numberDocument, Parts.reply?]
  | solved equation x =>
    simp [fields, ofFields?, Parts.ofFields?, field?, List.lookup_cons, Value.document,
      Document.flag?, Document.text?, number?_numberDocument, Parts.reply?]
  | refused message =>
    simp [fields, ofFields?, Parts.ofFields?, field?, List.lookup_cons, Value.document,
      Document.flag?, Document.text?, Parts.reply?]

/-- The JSON text of a reply is an object with these keys and no others, there is no null in it, and
the reply is read back from its fields. -/
def ReadsBack (r : Reply) (keys : List String) : Prop :=
  ∃ pieces fields, scan r.pretty.toList = some pieces ∧ .null ∉ pieces ∧
    decode r.pretty = some (.object fields) ∧ fields.map Prod.fst = keys ∧ ofFields? fields = some r

theorem readsBack_fields (r : Reply) : r.ReadsBack (r.fields.map Prod.fst) := by
  have hscan : scan r.pretty.toList = some (objectPieces r.fields) := scan_pretty r.fields
  have hdecode : decode r.pretty =
      some (.object (r.fields.map fun field => (field.1, field.2.document))) := by
    rw [decode, hscan]
    exact parse?_objectPieces r.fields
  refine ⟨_, _, hscan, null_not_mem_objectPieces r.fields, hdecode, ?_, ofFields?_document r⟩
  rw [List.map_map]
  rfl

/-- Different replies have different texts. -/
theorem pretty_injective {r r' : Reply} (h : r.pretty = r'.pretty) : r = r' := by
  obtain ⟨-, fields, -, -, hdecode, -, hread⟩ := readsBack_fields r
  obtain ⟨-, fields', -, -, hdecode', -, hread'⟩ := readsBack_fields r'
  rw [h, hdecode'] at hdecode
  cases hdecode
  exact Option.some.inj (hread.symm.trans hread')

def isSuccess : Reply → Bool
  | refused _ => false
  | _ => true

theorem keys_toExpression (text : String) :
    (toExpression text).fields.map Prod.fst = if (toExpression text).isSuccess
      then ["ok", "expression", "steps", "result"] else ["ok", "error"] := by
  unfold toExpression
  generalize calculate text = c
  cases c <;> rfl

theorem keys_toEquation (text : String) :
    (toEquation text).fields.map Prod.fst = if (toEquation text).isSuccess
      then ["ok", "equation", "x"] else ["ok", "error"] := by
  unfold toEquation
  generalize solveEquation text = solution
  cases solution <;> rfl

theorem readsBack (text : String) :
    (toExpression text).ReadsBack (if (toExpression text).isSuccess
      then ["ok", "expression", "steps", "result"] else ["ok", "error"]) ∧
    (toEquation text).ReadsBack (if (toEquation text).isSuccess
      then ["ok", "equation", "x"] else ["ok", "error"]) :=
  ⟨keys_toExpression text ▸ readsBack_fields (toExpression text),
    keys_toEquation text ▸ readsBack_fields (toEquation text)⟩

end Reply

end Reckoner
