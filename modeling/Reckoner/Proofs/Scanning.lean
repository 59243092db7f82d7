import Reckoner.Json
import Reckoner.Proofs.NumberText

/-!
# JSON text is split into what was written

Strings are read back character by character (`char?_escape`, `string?_escaped`), numbers as doubles
(`number?_of_jsonText?`). `Scans` says of a text that it is split into some pieces wherever it
stands, as long as no number runs on after it; it goes over from the items of a block to the block,
and so from fields to an object (`scan_pretty`).
-/

namespace Reckoner

namespace Json

section Strings

theorem hexDigit?_digitChar : ∀ n < 16, hexDigit? (Nat.digitChar n) = some n := by decide

/-- A control character is written with its number. -/
theorem unicode?_control {c : Char} (h : c.toNat < 0x20) (rest : List Char) :
    unicode? ('0' :: '0' :: Nat.digitChar (c.toNat / 16) :: Nat.digitChar (c.toNat % 16) :: rest) =
      some (c, rest) := by
  have hhigh := hexDigit?_digitChar (c.toNat / 16) (by omega)
  have hlow := hexDigit?_digitChar (c.toNat % 16) (by omega)
  have hzero : hexDigit? '0' = some 0 := rfl
  have hunit : codeUnit? ('0' :: '0' :: Nat.digitChar (c.toNat / 16) ::
      Nat.digitChar (c.toNat % 16) :: rest) = some (c.toNat, rest) := by
    simp only [codeUnit?, hhigh, hlow, hzero, Option.bind_eq_bind, Option.bind_some, pure]
    congr 2
    omega
  have hhighSurrogate : isHighSurrogate c.toNat = false := by
    rw [isHighSurrogate, decide_eq_false (p := 0xD800 ≤ c.toNat) (by omega), Bool.false_and]
  have hlowSurrogate : isLowSurrogate c.toNat = false := by
    rw [isLowSurrogate, decide_eq_false (p := 0xDC00 ≤ c.toNat) (by omega), Bool.false_and]
  simp [unicode?, hunit, hhighSurrogate, hlowSurrogate]

theorem char?_of_plain {c : Char} (hquote : c ≠ '"') (hslash : c ≠ '\\') (hprint : ¬ c.toNat < 0x20)
    (rest : List Char) : char? (c :: rest) = some (c, rest) := by
  unfold char?
  split
  all_goals rename_i heq
  · cases heq
  · exact absurd (List.cons.inj heq).1 hslash
  · exact absurd (List.cons.inj heq).1 hslash
  · obtain ⟨rfl, rfl⟩ := List.cons.inj heq
    simp [hquote, hslash, hprint]

theorem char?_escape (c : Char) (rest : List Char) : char? (escape c ++ rest) = some (c, rest) := by
  unfold escape
  split
  · rfl
  · rfl
  · rfl
  · rfl
  · rfl
  · rfl
  · rfl
  · rename_i hquote hslash _ _ _ _ _
    split
    · exact unicode?_control ‹_› rest
    · exact char?_of_plain hquote hslash ‹_› rest

theorem string?_eq_of_char? {cs rest : List Char} {c : Char} (h : char? cs = some (c, rest)) :
    string? cs = (string? rest).map fun (s, rest) => (c :: s, rest) := by
  rw [string?.eq_def]
  split
  · cases h
  · split
    all_goals rename_i heq
    · cases h.symm.trans heq
      rfl
    · cases h.symm.trans heq

theorem string?_escaped (cs rest : List Char) :
    string? (cs.flatMap escape ++ '"' :: rest) = some (cs, rest) := by
  induction cs with
  | nil =>
    rw [string?.eq_def]
    rfl
  | cons c cs ih =>
    rw [List.flatMap_cons, List.append_assoc, string?_eq_of_char? (char?_escape c _), ih]
    rfl

end Strings

section Pieces

variable {cs rest : List Char} {p : Piece}

theorem piece?_mark {c : Char} (h : isMark c) (rest : List Char) :
    piece? (c :: rest) = some (.mark c, rest) := by
  simp only [isMark, List.contains_eq_mem, List.mem_cons, List.not_mem_nil, or_false,
    decide_eq_true_eq] at h
  rcases h with rfl | rfl | rfl | rfl | rfl | rfl <;> rfl

theorem piece?_quote (s : String) (rest : List Char) :
    piece? ((quote s).toList ++ rest) = some (.text s, rest) := by
  have hquote : (quote s).toList ++ rest = '"' :: (s.toList.flatMap escape ++ '"' :: rest) := by
    simp [quote]
  rw [hquote, piece?, string?_escaped]
  exact congrArg (fun s => some (Piece.text s, rest)) String.ofList_toList

theorem piece?_space {c : Char} (h : isSpace c) : piece? (c :: rest) = none := by
  simp only [isSpace, List.contains_eq_mem, List.mem_cons, List.not_mem_nil, or_false,
    decide_eq_true_eq] at h
  rcases h with rfl | rfl | rfl | rfl <;> rfl

/-- Nothing that a number could run on into. -/
def Stops (rest : List Char) : Prop :=
  ∀ c ∈ rest.head?, isNumberChar c = false

theorem Stops.cons {c : Char} (h : isNumberChar c = false) (cs : List Char) : Stops (c :: cs) := by
  rintro d hd
  obtain rfl := Option.some.inj hd
  exact h

theorem isMark_of_isNumberChar {c : Char} (h : isNumberChar c) : isMark c = false := by
  refine Bool.eq_false_iff.mpr fun hmark => ?_
  simp only [isMark, List.contains_eq_mem, List.mem_cons, List.not_mem_nil, or_false,
    decide_eq_true_eq] at hmark
  rcases hmark with rfl | rfl | rfl | rfl | rfl | rfl <;> cases h

theorem piece?_number {x : Float} (h : number? cs = some x) (hrest : Stops rest) :
    piece? (cs ++ rest) = some (.number x, rest) := by
  have hchars : ∀ c ∈ cs, isNumberChar c := fun c hc => isNumberChar_of_number? h hc
  obtain ⟨htake, hdrop⟩ := takeWhile_dropWhile_append hchars hrest
  cases cs with
  | nil => cases h
  | cons c cs =>
    have hc := hchars c (by simp)
    show piece? (c :: (cs ++ rest)) = _
    rw [List.cons_append] at htake hdrop
    unfold piece?
    split
    all_goals rename_i heq
    · cases heq
    · obtain ⟨rfl, -⟩ := List.cons.inj heq
      cases hc
    · obtain ⟨rfl, -⟩ := List.cons.inj heq
      cases hc
    · obtain ⟨rfl, -⟩ := List.cons.inj heq
      cases hc
    · obtain ⟨rfl, -⟩ := List.cons.inj heq
      cases hc
    · obtain ⟨rfl, rfl⟩ := List.cons.inj heq
      rw [isMark_of_isNumberChar hc, htake, hdrop, h]
      rfl

theorem scan_space {c : Char} (h : isSpace c) (cs : List Char) : scan (c :: cs) = scan cs := by
  rw [scan, if_pos h]

theorem scan_of_piece? (h : piece? cs = some (p, rest)) : scan cs = (scan rest).map (p :: ·) := by
  cases cs with
  | nil => cases h
  | cons c cs =>
    have hspace : ¬ isSpace c := fun hspace => by
      rw [piece?_space hspace] at h
      cases h
    rw [scan, if_neg hspace]
    split
    all_goals rename_i heq
    · cases h.symm.trans heq
      rfl
    · cases h.symm.trans heq

end Pieces

/-- Wherever the text stands, it is split into these pieces. -/
def Scans (cs : List Char) (ps : List Piece) : Prop :=
  ∀ rest, Stops rest → scan (cs ++ rest) = (scan rest).map (ps ++ ·)

namespace Scans

variable {cs ds : List Char} {ps qs : List Piece}

/-- A piece that ends by itself, in front of more text. -/
theorem cons {p : Piece} (hp : ∀ rest, piece? (cs ++ rest) = some (p, rest)) (h : Scans ds ps) :
    Scans (cs ++ ds) (p :: ps) := by
  intro rest hrest
  rw [List.append_assoc, scan_of_piece? (hp _), h rest hrest, Option.map_map]
  rfl

/-- Two texts one after the other, if the second one stops a number at the end of the first. -/
theorem append (hcs : Scans cs ps) (hds : Scans ds qs)
    (hstops : ∀ rest, Stops rest → Stops (ds ++ rest)) : Scans (cs ++ ds) (ps ++ qs) := by
  intro rest hrest
  rw [List.append_assoc, hcs _ (hstops rest hrest), hds rest hrest, Option.map_map]
  simp [Function.comp_def]

theorem nil : Scans [] [] := fun rest _ => by simp

theorem mark_cons {c : Char} (hc : isMark c) (h : Scans cs ps) :
    Scans (c :: cs) (.mark c :: ps) := by
  show Scans ([c] ++ cs) _
  exact cons (piece?_mark hc) h

theorem quote_append (s : String) (h : Scans cs ps) :
    Scans ((quote s).toList ++ cs) (.text s :: ps) :=
  cons (piece?_quote s) h

theorem quote (s : String) : Scans (quote s).toList [.text s] := by
  simpa using quote_append s nil

theorem number {x : Float} (h : number? cs = some x) : Scans cs [.number x] :=
  fun _ hrest => scan_of_piece? (piece?_number h hrest)

theorem space {c : Char} (hc : isSpace c) (h : Scans cs ps) : Scans (c :: cs) ps :=
  fun rest hrest => (scan_space hc _).trans (h rest hrest)

theorem spaces {s : List Char} (hs : ∀ c ∈ s, isSpace c) (h : Scans cs ps) :
    Scans (s ++ cs) ps := by
  induction s with
  | nil => exact h
  | cons c s ih =>
    obtain ⟨hc, hs⟩ := List.forall_mem_cons.mp hs
    exact (ih hs).space hc

end Scans

section Blocks

variable {α : Type}

theorem scans_intercalate {text : α → List Char} {pieces : α → List Piece} {items : List α}
    (h : ∀ i ∈ items, Scans (text i) (pieces i)) :
    Scans ([',', '\n'].intercalate (items.map text))
      ([.mark ','].intercalate (items.map pieces)) := by
  induction items with
  | nil => exact .nil
  | cons i items ih =>
    obtain ⟨hi, hitems⟩ := List.forall_mem_cons.mp h
    cases items with
    | nil => simpa [List.intercalate] using hi
    | cons j items =>
      have hline := Scans.space (rfl : isSpace '\n') (ih hitems)
      have hrest := Scans.mark_cons (rfl : isMark ',') hline
      have happend := hi.append hrest fun _ _ => .cons rfl _
      simpa using happend

theorem toList_block (indent opening closing : String) {items : List String} (hne : items ≠ []) :
    (block indent opening closing items).toList =
      opening.toList ++ '\n' :: ([',', '\n'].intercalate
        (items.map fun item => indent.toList ++ (' ' :: ' ' :: item.toList)) ++
          '\n' :: (indent.toList ++ closing.toList)) := by
  cases items with
  | nil => exact absurd rfl hne
  | cons item items =>
    unfold block
    simp only [String.toList_append, String.toList_intercalate, List.map_map, Function.comp_def]
    simp

/-- The items of a block, each on a line of its own, are pieces with commas between. -/
theorem scans_block {opening closing : String} {o c : Char} (hopening : opening.toList = [o])
    (hclosing : closing.toList = [c]) (ho : isMark o) (hc : isMark c) {indent : String}
    (hindent : ∀ c ∈ indent.toList, isSpace c) {text : α → String} {pieces : α → List Piece}
    {items : List α} (h : ∀ i ∈ items, Scans (text i).toList (pieces i)) :
    Scans (block indent opening closing (items.map text)).toList
      (.mark o :: ([.mark ','].intercalate (items.map pieces) ++ [.mark c])) := by
  cases items with
  | nil =>
    have hlist : (block indent opening closing ([].map text)).toList = [o, c] := by
      simp [block, hopening, hclosing]
    rw [hlist]
    exact .mark_cons ho (.mark_cons hc .nil)
  | cons i items =>
    have hlines : ∀ i' ∈ i :: items,
        Scans (indent.toList ++ (' ' :: ' ' :: (text i').toList)) (pieces i') :=
      fun i' hi' => .spaces hindent (.space rfl (.space rfl (h i' hi')))
    have hend : Scans ('\n' :: (indent.toList ++ [c])) [.mark c] :=
      .space rfl (.spaces hindent (.mark_cons hc .nil))
    have hbody := (scans_intercalate hlines).append hend fun _ _ => .cons rfl _
    have hne : (i :: items).map text ≠ [] := List.cons_ne_nil _ _
    rw [toList_block _ _ _ hne, List.map_map, hopening, hclosing]
    exact .mark_cons ho (.space rfl hbody)

end Blocks

section Values

/-- The piece that a number is written as. -/
def numberPiece (x : Float) : Piece :=
  match jsonText? x with
  | some _ => .number x
  | none => .text (nonFinite (.ofFloat x))

namespace Value

def pieces : Value → List Piece
  | flag value => [.flag value]
  | number value => [numberPiece value]
  | text value => [.text value]
  | texts items =>
    .mark '[' :: ([.mark ','].intercalate (items.map fun s => [.text s]) ++ [.mark ']'])

end Value

theorem scans_number (x : Float) : Scans (number x).toList [numberPiece x] := by
  cases h : jsonText? x with
  | some text =>
    simp only [number, numberPiece, h]
    exact .number (number?_of_jsonText? h)
  | none =>
    simp only [number, numberPiece, h]
    exact .quote _

theorem scans_value (v : Value) {indent : String} (hindent : ∀ c ∈ indent.toList, isSpace c) :
    Scans (v.pretty indent).toList v.pieces := by
  cases v with
  | flag value =>
    cases value with
    | true => exact fun rest _ => scan_of_piece? (by simp [Value.pretty, piece?])
    | false => exact fun rest _ => scan_of_piece? (by simp [Value.pretty, piece?])
  | number value => exact scans_number value
  | text value => exact .quote value
  | texts items => exact scans_block rfl rfl rfl rfl hindent fun s _ => .quote s

def fieldPieces (field : String × Value) : List Piece :=
  .text field.1 :: .mark ':' :: field.2.pieces

theorem scans_field (field : String × Value) :
    Scans (quote field.1 ++ ": " ++ field.2.pretty "  ").toList (fieldPieces field) := by
  have hindent : ∀ c ∈ "  ".toList, isSpace c := by simp [isSpace]
  have hlist : (quote field.1 ++ ": " ++ field.2.pretty "  ").toList =
      (quote field.1).toList ++ (':' :: ' ' :: (field.2.pretty "  ").toList) := by
    simp
  rw [hlist]
  exact .quote_append _ (.mark_cons rfl (.space rfl (scans_value field.2 hindent)))

def objectPieces (fields : List (String × Value)) : List Piece :=
  .mark '\x7b' :: ([.mark ','].intercalate (fields.map fieldPieces) ++ [.mark '\x7d'])

theorem scan_pretty (fields : List (String × Value)) :
    scan (pretty fields).toList = some (objectPieces fields) := by
  have hblock : Scans (pretty fields).toList (objectPieces fields) :=
    scans_block rfl rfl rfl rfl (by simp) fun field _ => scans_field field
  have hscan := hblock [] nofun
  rw [List.append_nil] at hscan
  rw [hscan, scan]
  simp

end Values

end Json

end Reckoner
