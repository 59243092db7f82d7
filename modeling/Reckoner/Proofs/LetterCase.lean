import Reckoner.Proofs.Accumulation

/-!
# The case of letters

An equation in which some of the letters `x` or `e` are written in the other case has the same
solution, or a fault of the same kind that names the pieces at the same places
(`solveEquation_recased`). This needs no syntax: the texts may have any characters.

Two such texts are `Recased`. The readers look for characters other than letters, and where they ask
for a letter they take either case (`Letter.SameChar.congr`). So they find the same sign, the same
run and the same power in both, and each leaves rests that are recased again; the texts are cut at
the same places (`Recased.cut`). The terms are added one after the other to equal forms, and the
first one at fault is the same in both (`SameOutcome.foldlM_addTerm`).
-/

namespace Reckoner

open LinearForm

/-- The letters that have a meaning in an equation. -/
inductive Letter where
  | unknown
  | exponent
  deriving DecidableEq, Repr

def Letter.forms : Letter → List Char
  | unknown => ['x', 'X']
  | exponent => ['e', 'E']

/-- The same character, or the letter in either case. -/
def Letter.SameChar (letter : Letter) (c d : Char) : Prop :=
  c = d ∨ c ∈ letter.forms ∧ d ∈ letter.forms

/-- The same text, except that some of the letters may be in the other case. -/
def Recased (letter : Letter) : List Char → List Char → Prop :=
  List.Forall₂ letter.SameChar

/-- `f` and `g` have the same place in `cs` and in `ds`. -/
def SamePlace (cs ds f g : List Char) : Prop :=
  ∃ i n, i + n ≤ cs.length ∧ f = (cs.drop i).take n ∧ g = (ds.drop i).take n

/-- Two pieces with the same place in their texts, which differ in the case of the letter alone. -/
structure SamePiece (letter : Letter) (cs ds f g : List Char) : Prop where
  place : SamePlace cs ds f g
  recased : Recased letter f g

/-- Faults of the same kind, with pieces of the two texts that have the same place. -/
inductive SameFault (letter : Letter) (cs ds : List Char) : Fault → Fault → Prop where
  | missingEquals : SameFault letter cs ds .missingEquals .missingEquals
  | rightSideNotNumber {f g : List Char} (h : SamePiece letter cs ds f g) :
      SameFault letter cs ds (.rightSideNotNumber (String.ofList f))
        (.rightSideNotNumber (String.ofList g))
  | badTerm {f g : List Char} (h : SamePiece letter cs ds f g) (kind : TermKind) :
      SameFault letter cs ds (.badTerm (String.ofList f) kind) (.badTerm (String.ofList g) kind)
  | noUniqueSolution : SameFault letter cs ds .noUniqueSolution .noUniqueSolution

/-- The same value, or faults that say the same. -/
inductive SameOutcome (letter : Letter) (cs ds : List Char) {α : Type} :
    Except Fault α → Except Fault α → Prop where
  | ok (a : α) : SameOutcome letter cs ds (.ok a) (.ok a)
  | error {fault fault' : Fault} (h : SameFault letter cs ds fault fault') :
      SameOutcome letter cs ds (.error fault) (.error fault')

variable {letter : Letter} {cs ds : List Char}

/-! ### Characters -/

section Chars

variable {c d : Char}

/-- What does not distinguish the cases of the two letters does not distinguish the characters. -/
theorem Letter.SameChar.congr {α : Type} {p : Char → α} (h : letter.SameChar c d)
    (hx : p 'x' = p 'X') (he : p 'e' = p 'E') : p c = p d := by
  rcases h with rfl | ⟨hc, hd⟩
  · rfl
  · cases letter <;> simp only [forms, List.mem_cons, List.not_mem_nil, or_false] at hc hd <;>
      rcases hc with rfl | rfl <;> rcases hd with rfl | rfl <;> simp only [hx, he]

theorem Letter.SameChar.symm (h : letter.SameChar c d) : letter.SameChar d c :=
  h.imp Eq.symm And.symm

theorem Letter.SameChar.eq (h : letter.SameChar c d) (hc : c ∉ ['x', 'X', 'e', 'E']) : c = d := by
  refine h.resolve_right fun hforms => hc ?_
  cases letter <;> have hc := hforms.1 <;>
    simp only [forms, List.mem_cons, List.not_mem_nil, or_false] at hc <;>
    rcases hc with rfl | rfl <;> simp

theorem Letter.SameChar.eq_iff {e : Char} (h : letter.SameChar c d)
    (he : e ∉ ['x', 'X', 'e', 'E']) : c = e ↔ d = e := by
  constructor
  · rintro rfl
    exact (h.eq he).symm
  · rintro rfl
    exact (h.symm.eq he).symm

theorem Letter.SameChar.ne {e : Char} (h : letter.SameChar c d) (he : e ∉ ['x', 'X', 'e', 'E'])
    (hne : c ≠ e) : d ≠ e :=
  mt (h.eq_iff he).mpr hne

theorem not_mem_letters_of_isDigit (h : c.isDigit = true) : c ∉ ['x', 'X', 'e', 'E'] := by
  intro hc
  simp only [List.mem_cons, List.not_mem_nil, or_false] at hc
  rcases hc with rfl | rfl | rfl | rfl <;> cases h

end Chars

/-! ### Literals -/

theorem takeSign_cons_of_ne {c : Char} (hplus : c ≠ '+') (hminus : c ≠ '-') (cs : List Char) :
    Literal.takeSign (c :: cs) = (false, c :: cs) := by
  unfold Literal.takeSign
  split
  · exact absurd (List.cons.inj ‹_›).1 hplus
  · exact absurd (List.cons.inj ‹_›).1 hminus
  · rfl

/-- A bare sign and nothing at all count for one, anything else is a literal. -/
theorem coefficient?_eq_ite (cs : List Char) : LinearForm.coefficient? cs =
    if cs = [] then some 1 else if cs = ['+'] then some 1 else if cs = ['-'] then some (-1)
    else readLiteral cs := by
  unfold LinearForm.coefficient?
  split <;> simp_all

theorem addTerm_eq_match (form : LinearForm) (term : List Char) :
    form.addTerm term = match termValue? term with
      | some v => .ok (form.add (kindOf term) v)
      | none => .error (.badTerm (String.ofList term) (kindOf term)) := by
  obtain ⟨v, hv, hadd⟩ | ⟨hnone, hadd⟩ := addTerm_cases form term
  · rw [hadd, hv]
  · rw [hadd, hnone]

namespace Recased

theorem symm (h : Recased letter cs ds) : Recased letter ds cs :=
  (h.imp fun _ _ hc => hc.symm).flip

theorem eq_of_forall_not_mem (h : Recased letter cs ds) (hcs : ∀ c ∈ cs, c ∉ ['x', 'X', 'e', 'E']) :
    cs = ds := by
  induction h with
  | nil => rfl
  | cons hc _ ih =>
    obtain ⟨hletter, hrest⟩ := List.forall_mem_cons.mp hcs
    rw [hc.eq hletter, ih hrest]

theorem eq_iff (h : Recased letter cs ds) {es : List Char}
    (hes : ∀ c ∈ es, c ∉ ['x', 'X', 'e', 'E']) : cs = es ↔ ds = es := by
  constructor
  · rintro rfl
    exact (h.eq_of_forall_not_mem hes).symm
  · rintro rfl
    exact (h.symm.eq_of_forall_not_mem hes).symm

theorem map_eq {α : Type} {p : Char → α} (h : Recased letter cs ds) (hx : p 'x' = p 'X')
    (he : p 'e' = p 'E') : cs.map p = ds.map p := by
  induction h with
  | nil => rfl
  | cons hc _ ih => rw [List.map_cons, List.map_cons, hc.congr hx he, ih]

theorem filter {p : Char → Bool} (h : Recased letter cs ds) (hx : p 'x' = p 'X')
    (he : p 'e' = p 'E') : Recased letter (cs.filter p) (ds.filter p) :=
  List.rel_filter (fun _ _ hc => iff_of_eq (congrArg (· = true) (hc.congr hx he))) h

/-- A run that is taken off ends in front of a letter. -/
theorem takeRun (h : Recased letter cs ds) (b : Bool) :
    (takeRun b cs).1 = (takeRun b ds).1 ∧ Recased letter (takeRun b cs).2 (takeRun b ds).2 := by
  induction h generalizing b with
  | nil => exact ⟨rfl, .nil⟩
  | @cons c d cs ds hc hcs ih =>
    have hdigit : c.isDigit = d.isDigit := hc.congr rfl rfl
    have hpoint : c = '.' ↔ d = '.' := hc.eq_iff (by simp)
    simp only [Reckoner.takeRun, ← hdigit, ← hpoint]
    by_cases hd : c.isDigit
    · obtain rfl := hc.eq (not_mem_letters_of_isDigit hd)
      simpa [hd] using ih b
    by_cases hp : c = '.' ∧ b
    · obtain rfl := hc.eq (by simp [hp.1])
      simpa [hd, hp] using ih false
    · simp only [hd, hp, if_false]
      exact ⟨rfl, .cons hc hcs⟩

theorem takeSign (h : Recased letter cs ds) :
    (Literal.takeSign cs).1 = (Literal.takeSign ds).1 ∧
      Recased letter (Literal.takeSign cs).2 (Literal.takeSign ds).2 := by
  cases h with
  | nil => exact ⟨rfl, .nil⟩
  | @cons c d cs ds hc hcs =>
    by_cases hplus : c = '+'
    · obtain rfl := hc.eq (by simp [hplus])
      subst hplus
      exact ⟨rfl, hcs⟩
    by_cases hminus : c = '-'
    · obtain rfl := hc.eq (by simp [hminus])
      subst hminus
      exact ⟨rfl, hcs⟩
    · have hplus' : d ≠ '+' := hc.ne (by simp) hplus
      have hminus' : d ≠ '-' := hc.ne (by simp) hminus
      rw [takeSign_cons_of_ne hplus hminus, takeSign_cons_of_ne hplus' hminus']
      exact ⟨rfl, .cons hc hcs⟩

theorem digits?_eq (h : Recased letter cs ds) : Literal.digits? cs = Literal.digits? ds := by
  by_cases hall : cs.all Char.isDigit
  · have hdigits := List.all_eq_true.mp hall
    rw [h.eq_of_forall_not_mem fun c hc => not_mem_letters_of_isDigit (hdigits c hc)]
  · have hall' : ¬ ds.all Char.isDigit := by
      have hmap := congrArg (List.all · id) (h.map_eq (p := Char.isDigit) rfl rfl)
      simp only [List.all_map, Function.id_comp] at hmap
      rwa [← hmap]
    rw [Literal.digits?, Literal.digits?, if_neg (mt And.right hall), if_neg (mt And.right hall')]

theorem exponent?_eq (h : Recased letter cs ds) : Literal.exponent? cs = Literal.exponent? ds := by
  cases h with
  | nil => rfl
  | @cons c d cs ds hc hcs =>
    have hletter : (c = 'e' ∨ c = 'E') = (d = 'e' ∨ d = 'E') :=
      hc.congr (p := fun c => c = 'e' ∨ c = 'E') (by simp) (by simp)
    obtain ⟨hsign, hdigits⟩ := Recased.takeSign hcs
    simp only [Literal.exponent?, hletter, hsign, hdigits.digits?_eq]

theorem readLiteral_eq (h : Recased letter cs ds) : readLiteral cs = readLiteral ds := by
  obtain ⟨hsign, hunsigned⟩ := h.takeSign
  obtain ⟨hrun, hrest⟩ := hunsigned.takeRun true
  have hparse : Literal.parse? cs = Literal.parse? ds := by
    simp only [Literal.parse?, hsign, hrun, hrest.exponent?_eq]
  rw [readLiteral, readLiteral, hparse]

/-! ### Terms -/

theorem coefficient?_eq (h : Recased letter cs ds) :
    LinearForm.coefficient? cs = LinearForm.coefficient? ds := by
  have hnil : cs = [] ↔ ds = [] := h.eq_iff (by simp)
  have hplus : cs = ['+'] ↔ ds = ['+'] := h.eq_iff (by simp)
  have hminus : cs = ['-'] ↔ ds = ['-'] := h.eq_iff (by simp)
  simp only [coefficient?_eq_ite, hnil, hplus, hminus, h.readLiteral_eq]

theorem kindOf_eq (h : Recased letter cs ds) : kindOf cs = kindOf ds := by
  have hany := congrArg (List.any · id) (h.map_eq (p := isUnknown) rfl rfl)
  simp only [List.any_map, Function.id_comp] at hany
  rw [kindOf, kindOf, hany]

theorem withoutLetters (h : Recased letter cs ds) :
    Recased letter (withoutLetters cs) (withoutLetters ds) :=
  h.filter rfl rfl

theorem termValue?_eq (h : Recased letter cs ds) : termValue? cs = termValue? ds := by
  rw [termValue?, termValue?, h.kindOf_eq, h.readLiteral_eq, h.withoutLetters.coefficient?_eq]

end Recased

/-! ### Pieces -/

section Pieces

variable {f g : List Char}

theorem SamePlace.recased (h : SamePlace cs ds f g) (hcs : Recased letter cs ds) :
    SamePiece letter cs ds f g := by
  refine ⟨h, ?_⟩
  obtain ⟨i, n, -, rfl, rfl⟩ := h
  exact List.forall₂_take n (List.forall₂_drop i hcs)

theorem SamePlace.cons (h : SamePlace cs ds f g) (c d : Char) :
    SamePlace (c :: cs) (d :: ds) f g := by
  obtain ⟨i, n, hn, rfl, rfl⟩ := h
  refine ⟨i + 1, n, ?_, rfl, rfl⟩
  rw [List.length_cons]
  omega

/-- What stands behind texts of the same length. -/
theorem samePlace_behind (hlength : cs.length = ds.length) (hfg : f.length = g.length) :
    SamePlace (cs ++ f) (ds ++ g) f g := by
  refine ⟨cs.length, f.length, ?_, ?_, ?_⟩
  · rw [List.length_append]
  · simp
  · simp [hlength, hfg]

theorem take_drop_append {i n : Nat} (h : i + n ≤ cs.length) (rest : List Char) :
    ((cs ++ rest).drop i).take n = (cs.drop i).take n := by
  have hn : n ≤ (cs.drop i).length := by
    rw [List.length_drop]
    omega
  rw [List.drop_append_of_le_length (by omega), List.take_append_of_le_length hn]

theorem SamePlace.append (h : SamePlace cs ds f g) (hlength : cs.length = ds.length)
    (rest rest' : List Char) : SamePlace (cs ++ rest) (ds ++ rest') f g := by
  obtain ⟨i, n, hn, rfl, rfl⟩ := h
  refine ⟨i, n, ?_, (take_drop_append hn rest).symm, (take_drop_append (hlength ▸ hn) rest').symm⟩
  rw [List.length_append]
  omega

/-- The pieces of both texts have the same places. -/
theorem Recased.cut (h : Recased letter cs ds) :
    ∃ n tail tail', n ≤ cs.length ∧ cut cs = cs.take n :: tail ∧ cut ds = ds.take n :: tail' ∧
      List.Forall₂ (SamePlace cs ds) tail tail' := by
  induction h with
  | nil => exact ⟨0, [], [], Nat.le_refl 0, rfl, rfl, .nil⟩
  | @cons c d cs ds hc hcs ih =>
    obtain ⟨n, tail, tail', hn, hcut, hcut', htail⟩ := ih
    have hplaces : List.Forall₂ (SamePlace (c :: cs) (d :: ds)) tail tail' :=
      htail.imp fun _ _ h => h.cons c d
    have hlength : n + 1 ≤ (c :: cs).length := Nat.succ_le_succ hn
    by_cases hplus : c = '+'
    · obtain rfl := hc.eq (by simp [hplus])
      refine ⟨0, cs.take n :: tail, ds.take n :: tail', Nat.zero_le _, ?_, ?_, .cons ?_ hplaces⟩
      · rw [Reckoner.cut, if_pos hplus, hcut, List.take_zero]
      · rw [Reckoner.cut, if_pos hplus, hcut', List.take_zero]
      · exact ⟨1, n, by omega, rfl, rfl⟩
    by_cases hminus : c = '-'
    · obtain rfl := hc.eq (by simp [hminus])
      refine ⟨0, (c :: cs.take n) :: tail, (c :: ds.take n) :: tail', Nat.zero_le _, ?_, ?_,
        .cons ⟨0, n + 1, by omega, rfl, rfl⟩ hplaces⟩
      · rw [Reckoner.cut, if_neg hplus, if_pos hminus, hcut, hminus]
        rfl
      · rw [Reckoner.cut, if_neg hplus, if_pos hminus, hcut', hminus]
        rfl
    · have hplus' : d ≠ '+' := hc.ne (by simp) hplus
      have hminus' : d ≠ '-' := hc.ne (by simp) hminus
      refine ⟨n + 1, tail, tail', hlength, ?_, ?_, hplaces⟩
      · rw [Reckoner.cut, if_neg hplus, if_neg hminus, hcut]
        rfl
      · rw [Reckoner.cut, if_neg hplus', if_neg hminus', hcut']
        rfl

theorem Recased.fragments (h : Recased letter cs ds) :
    List.Forall₂ (SamePiece letter cs ds) (fragments cs) (fragments ds) := by
  obtain ⟨n, tail, tail', hn, hcut, hcut', htail⟩ := h.cut
  have hfront : SamePlace cs ds (cs.take n) (ds.take n) := ⟨0, n, by omega, rfl, rfl⟩
  have hpieces : List.Forall₂ (SamePiece letter cs ds) (Reckoner.cut cs) (Reckoner.cut ds) := by
    rw [hcut, hcut']
    exact .cons (hfront.recased h) (htail.imp fun _ _ hplace => hplace.recased h)
  refine List.rel_filter (fun f g hpiece => ?_) hpieces
  have hnil : f = [] ↔ g = [] := hpiece.recased.eq_iff (by simp)
  simp [hnil]

theorem SamePiece.append (h : SamePiece letter cs ds f g) (hcs : Recased letter cs ds)
    (rest rest' : List Char) : SamePiece letter (cs ++ rest) (ds ++ rest') f g :=
  ⟨h.place.append hcs.length_eq rest rest', h.recased⟩

/-- A text is cut at its first equals sign wherever letters are in the other case. -/
theorem Recased.exists_cut {left right : List Char} (h : Recased letter (left ++ '=' :: right) ds)
    (hleft : '=' ∉ left) : ∃ left' right', ds = left' ++ '=' :: right' ∧ '=' ∉ left' ∧
      Recased letter left left' ∧ Recased letter right right' := by
  induction left generalizing ds with
  | nil =>
    obtain ⟨d, right', hd, hright, rfl⟩ := List.forall₂_cons_left_iff.mp h
    obtain rfl := hd.eq (by simp)
    exact ⟨[], right', rfl, List.not_mem_nil, .nil, hright⟩
  | cons c left ih =>
    obtain ⟨d, ds, hd, hrest, rfl⟩ := List.forall₂_cons_left_iff.mp h
    rw [List.mem_cons, not_or] at hleft
    obtain ⟨left', right', rfl, hleft', hrecased, hright⟩ := ih hrest hleft.2
    have hne : d ≠ '=' := hd.ne (by simp) (Ne.symm hleft.1)
    refine ⟨d :: left', right', rfl, ?_, .cons hd hrecased, hright⟩
    simp [hne.symm, hleft']

end Pieces

/-! ### Outcomes -/

namespace SameOutcome

variable {α β : Type}

theorem bind {x x' : Except Fault α} {k k' : α → Except Fault β}
    (h : SameOutcome letter cs ds x x') (hk : ∀ a, SameOutcome letter cs ds (k a) (k' a)) :
    SameOutcome letter cs ds (x >>= k) (x' >>= k') := by
  cases h with
  | ok a => exact hk a
  | error h => exact .error h

theorem eq_ok {x x' : Except Fault α} {a : α} (h : SameOutcome letter cs ds x x')
    (hx : x = .ok a) : x' = .ok a := by
  cases h with
  | ok => exact hx
  | error => cases hx

theorem addTerm {f g : List Char} (h : SamePiece letter cs ds f g) (form : LinearForm) :
    SameOutcome letter cs ds (form.addTerm f) (form.addTerm g) := by
  rw [addTerm_eq_match, addTerm_eq_match, h.recased.termValue?_eq, h.recased.kindOf_eq]
  cases termValue? g with
  | none => exact .error (.badTerm h (kindOf g))
  | some v => exact .ok (form.add (kindOf g) v)

theorem foldlM_addTerm {fs gs : List (List Char)}
    (h : List.Forall₂ (SamePiece letter cs ds) fs gs) (form : LinearForm) :
    SameOutcome letter cs ds (fs.foldlM LinearForm.addTerm form)
      (gs.foldlM LinearForm.addTerm form) := by
  induction h generalizing form with
  | nil => exact .ok form
  | cons hf _ ih =>
    rw [List.foldlM_cons, List.foldlM_cons]
    exact (addTerm hf form).bind ih

end SameOutcome

/-- The case of the unknown, and likewise that of the letter of a power of ten, changes nothing but
the case of the pieces that faults name. -/
theorem solveEquation_recased (letter : Letter) (s t : String)
    (h : Recased letter s.toList t.toList) :
    SameOutcome letter (withoutBlanks s.toList) (withoutBlanks t.toList) (solveEquation s)
      (solveEquation t) := by
  have hcs : Recased letter (withoutBlanks s.toList) (withoutBlanks t.toList) := h.filter rfl rfl
  by_cases hequals : '=' ∈ withoutBlanks s.toList
  case neg =>
    have hequals' : '=' ∉ withoutBlanks t.toList := by
      intro hmem
      obtain ⟨left, right, ht, hleft⟩ := List.eq_append_cons_of_mem hmem
      obtain ⟨left', right', hs, -⟩ := (ht ▸ hcs.symm).exists_cut hleft
      exact hequals (by simp [hs])
    rw [solveEquation_of_not_mem hequals, solveEquation_of_not_mem hequals']
    exact .error .missingEquals
  obtain ⟨left, right, hs, hleft⟩ := List.eq_append_cons_of_mem hequals
  rw [hs] at hcs ⊢
  obtain ⟨left', right', ht, hleft', hrecased, hright⟩ := hcs.exists_cut hleft
  rw [ht] at hcs ⊢
  rw [solveEquation_eq_match hs hleft, solveEquation_eq_match ht hleft', ← hright.readLiteral_eq]
  cases hread : readLiteral right with
  | none =>
    have hplace : SamePlace (left ++ '=' :: right) (left' ++ '=' :: right') right right' := by
      have hfront : (left ++ ['=']).length = (left' ++ ['=']).length := by simp [hrecased.length_eq]
      simpa using samePlace_behind hfront hright.length_eq
    exact .error (.rightSideNotNumber (hplace.recased hcs))
  | some rhs =>
    have hform : SameOutcome letter (left ++ '=' :: right) (left' ++ '=' :: right') (ofText left)
        (ofText left') := by
      rw [ofText, ofText, terms_eq_fragments, terms_eq_fragments]
      exact .foldlM_addTerm (hrecased.fragments.imp fun _ _ hf => hf.append hrecased _ _) zero
    refine hform.bind fun form => ?_
    split
    · exact .error .noUniqueSolution
    · exact .ok _

/-- `1e1x = 5E0` with the powers in the other case, and the unknown in the other case in an equation
with a term at fault. -/
theorem solveEquation_recased_tenX :
    (Recased .exponent "1e1x = 5E0".toList "1E1x = 5e0".toList ∧
        solveEquation "1e1x = 5E0" = .ok 0.5 ∧ solveEquation "1E1x = 5e0" = .ok 0.5) ∧
      Recased .unknown "x + 2Xy = 1".toList "X + 2xy = 1".toList ∧
      solveEquation "x + 2Xy = 1" = .error (.badTerm "2Xy" .unknown) ∧
      SameOutcome .unknown (withoutBlanks "x + 2Xy = 1".toList)
        (withoutBlanks "X + 2xy = 1".toList) (solveEquation "x + 2Xy = 1")
        (solveEquation "X + 2xy = 1") := by
  have hexponent : Recased .exponent "1e1x = 5E0".toList "1E1x = 5e0".toList := by
    simp [Recased, Letter.SameChar, Letter.forms]
  have hunknown : Recased .unknown "x + 2Xy = 1".toList "X + 2xy = 1".toList := by
    simp [Recased, Letter.SameChar, Letter.forms]
  have hsolved : solveEquation "1e1x = 5E0" = .ok 0.5 := by decide +kernel
  have hrefused : solveEquation "x + 2Xy = 1" = .error (.badTerm "2Xy" .unknown) := by
    decide +kernel
  exact ⟨⟨hexponent, hsolved, (solveEquation_recased _ _ _ hexponent).eq_ok hsolved⟩, hunknown,
    hrefused, solveEquation_recased _ _ _ hunknown⟩

end Reckoner
