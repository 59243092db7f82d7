import Mathlib.Data.List.Chain
import Reckoner.Rpn.Conversion.Lemmas

/-!
# What is held in a group

The opening parentheses cut what a conversion holds into segments, one for each open group and one
for what stands outside of all groups. At every place of a text each of them is, from bottom to
top, a sum or a difference or neither, a product or a quotient or neither, powers, and signs
(`segments_layered`).

The invariant is that no operator that is held yields to the one right below it (`Settled`), as this
one was taken off before. The precedences make layers of that: an operator that yields to none of
those below it belongs to the layer on top of them, or opens a new one (`IsLayered.concat`).
-/

namespace Reckoner

open Conversion

/-- The operators between two opening parentheses, below the first one and above the last one, each
segment and all of them together from top to bottom. -/
def segments : List Held → List (List Operator)
  | [] => [[]]
  | .opening :: held => [] :: segments held
  | .operator op :: held => (segments held).modifyHead (op :: ·)

/-- At most one sum or difference, at most one product or quotient, powers, and signs. -/
inductive IsLayered : List Operator → Prop where
  | mk {sums products powers signs : List Operator}
      (hsums : ∀ op ∈ sums, op = .binary .add ∨ op = .binary .sub) (one_sum : sums.length ≤ 1)
      (hproducts : ∀ op ∈ products, op = .binary .mul ∨ op = .binary .div)
      (one_product : products.length ≤ 1) (hpowers : ∀ op ∈ powers, op = .binary .pow)
      (hsigns : ∀ op ∈ signs, op = .neg) : IsLayered (sums ++ products ++ powers ++ signs)

/-- The conversion comes to `c` at some place of the text `cs`, whatever stands behind it. -/
def Reaches (cs : List Char) (c : Conversion) : Prop :=
  ∃ front out, front <+: lexemes cs ∧ transduce step .start front = .ok (out, c)

/-- Reading an operator takes these operators off, from the top on, and puts it on the rest. -/
def TakesOff (c : Conversion) (op : BinaryOp) (released : List Operator) (rest : List Held) : Prop :=
  c.held = released.map .operator ++ rest ∧
    step c (.operator op) =
      .ok (released.map .operator, ⟨.operator (role c.signPlace op) :: rest, true⟩)

/-! ### Layers -/

section Layers

namespace Operator

variable {op below deeper : Operator}

theorem yieldsTo_eq_false_iff : op.yieldsTo below = false ↔
    below.precedence < op.precedence ∨
      below.precedence = op.precedence ∧ op.leftAssociative = false := by
  unfold yieldsTo
  cases op.leftAssociative with
  | true => simp
  | false =>
    simp only [Bool.false_eq_true, if_false, decide_eq_false_iff_not, and_true]
    omega

theorem yieldsTo_eq_false_trans (h : op.yieldsTo below = false)
    (h' : below.yieldsTo deeper = false) : op.yieldsTo deeper = false := by
  rw [yieldsTo_eq_false_iff] at *
  obtain hlt | ⟨heq, hright⟩ := h
  · omega
  · obtain hlt' | ⟨heq', -⟩ := h'
    · omega
    · exact .inr ⟨heq'.trans heq, hright⟩

theorem yieldsTo_of_sum (h : op = .binary .add ∨ op = .binary .sub) (below : Operator) :
    op.yieldsTo below = true := by
  have hle : 1 ≤ below.precedence := by
    rcases below with _ | (_ | _ | _ | _ | _) <;> decide
  rcases h with rfl | rfl <;> exact decide_eq_true hle

theorem yieldsTo_of_product (h : op = .binary .mul ∨ op = .binary .div)
    (hbelow : 2 ≤ below.precedence) : op.yieldsTo below = true := by
  rcases h with rfl | rfl <;> exact decide_eq_true hbelow

theorem pow_yieldsTo_iff : (binary .pow).yieldsTo below = true ↔ below = neg := by
  rcases below with _ | (_ | _ | _ | _ | _) <;> decide

end Operator

variable {op : Operator} {ops : List Operator}

theorem eq_nil_of_yieldsTo (hop : ∀ below ∈ ops, op.yieldsTo below = false)
    (h : ∀ below ∈ ops, op.yieldsTo below = true) : ops = [] := by
  refine List.eq_nil_iff_forall_not_mem.mpr fun below hbelow => ?_
  have hfalse := hop below hbelow
  rw [h below hbelow] at hfalse
  cases hfalse

theorem IsLayered.nil : IsLayered [] :=
  @IsLayered.mk [] [] [] [] nofun (Nat.zero_le 1) nofun (Nat.zero_le 1) nofun nofun

/-- An operator that yields to none of the operators below it lies in the layer on top of theirs if
this can hold more than one, and else in a higher one. -/
theorem IsLayered.concat (h : IsLayered ops) (hop : ∀ below ∈ ops, op.yieldsTo below = false) :
    IsLayered (ops ++ [op]) := by
  obtain @⟨sums, products, powers, signs, hsums, one_sum, hproducts, one_product, hpowers,
    hsigns⟩ := h
  simp only [List.forall_mem_append] at hop
  obtain ⟨⟨⟨hop_sums, hop_products⟩, hop_powers⟩, hop_signs⟩ := hop
  have hlayers : op = .neg ∨ op = .binary .pow ∨ (op = .binary .mul ∨ op = .binary .div) ∨
      (op = .binary .add ∨ op = .binary .sub) := by
    rcases op with _ | (_ | _ | _ | _ | _) <;> simp
  -- The operator would yield to each operator of a higher layer, so these layers are empty; a
  -- product and a sum yield to those of their own layer too.
  rcases hlayers with rfl | rfl | hproduct | hsum
  · rw [List.append_assoc]
    refine .mk hsums one_sum hproducts one_product hpowers fun below hbelow => ?_
    simpa using List.mem_append.mp hbelow |>.imp_left (hsigns below)
  · obtain rfl := eq_nil_of_yieldsTo hop_signs fun below h => by rw [hsigns below h]; rfl
    have hpow : ∀ below ∈ powers ++ [.binary .pow], below = .binary .pow := fun below hbelow => by
      simpa using List.mem_append.mp hbelow |>.imp_left (hpowers below)
    simpa using IsLayered.mk hsums one_sum hproducts one_product hpow hsigns
  · have hyields {below : Operator} : 2 ≤ below.precedence → op.yieldsTo below = true :=
      Operator.yieldsTo_of_product hproduct
    obtain rfl := eq_nil_of_yieldsTo hop_signs fun below h =>
      hyields (by rw [hsigns below h]; decide)
    obtain rfl := eq_nil_of_yieldsTo hop_powers fun below h =>
      hyields (by rw [hpowers below h]; decide)
    obtain rfl := eq_nil_of_yieldsTo hop_products fun below h =>
      hyields (by rcases hproducts below h with rfl | rfl <;> decide)
    have hlayer : ∀ below ∈ [op], below = .binary .mul ∨ below = .binary .div := by
      simpa using hproduct
    simpa using IsLayered.mk hsums one_sum hlayer (Nat.le_refl 1) hpowers hsigns
  · have hyields := Operator.yieldsTo_of_sum hsum
    obtain rfl := eq_nil_of_yieldsTo hop_signs fun below _ => hyields below
    obtain rfl := eq_nil_of_yieldsTo hop_powers fun below _ => hyields below
    obtain rfl := eq_nil_of_yieldsTo hop_products fun below _ => hyields below
    obtain rfl := eq_nil_of_yieldsTo hop_sums fun below _ => hyields below
    have hlayer : ∀ below ∈ [op], below = .binary .add ∨ below = .binary .sub := by
      simpa using hsum
    simpa using IsLayered.mk hlayer (Nat.le_refl 1) hproducts one_product hpowers hsigns

/-- Where no operator yields to one that stands below it, the operators are in layers. -/
theorem isLayered_reverse (h : ops.Pairwise fun op below => op.yieldsTo below = false) :
    IsLayered ops.reverse := by
  induction h with
  | nil => exact .nil
  | @cons op ops hop _ ih =>
    rw [List.reverse_cons]
    exact ih.concat fun below hbelow => hop below (List.mem_reverse.mp hbelow)

end Layers

/-! ### What is held -/

section Held

variable {held rest : List Held} {released : List Operator}

/-- No operator that is held yields to the one right below it. -/
def Settled : List Held → Prop :=
  List.IsChain fun h below => ∀ op op', h = .operator op → below = .operator op' →
    op.yieldsTo op' = false

namespace Settled

theorem of_append (h : Settled (released.map .operator ++ rest)) : Settled rest :=
  List.IsChain.suffix h (List.suffix_append _ rest)

theorem opening (h : Settled held) : Settled (.opening :: held) :=
  List.isChain_cons.mpr ⟨fun _ _ _ _ hop => (nomatch hop), h⟩

theorem operator {op : Operator} (h : Settled held)
    (htop : ∀ op', held.head? = some (.operator op') → op.yieldsTo op' = false) :
    Settled (.operator op :: held) := by
  refine List.isChain_cons.mpr ⟨fun below hbelow op₁ op' hop hop' => ?_, h⟩
  cases hop
  exact htop op' (hop' ▸ hbelow)

theorem of_opening (h : Settled (.opening :: held)) : Settled held :=
  List.IsChain.tail h

theorem step {c next : Conversion} {l : Lexeme} {out : List Token} (h : Settled c.held)
    (hstep : Conversion.step c l = .ok (out, next)) : Settled next.held := by
  obtain ⟨held, signPlace⟩ := c
  obtain ⟨_, _, -, -, -, rfl⟩ | ⟨op, -, -, rfl⟩ | ⟨-, -, rfl⟩ | ⟨rest, -, hclosing, rfl⟩ :=
    step_cases hstep
  · exact h
  · obtain ⟨released, rest, rfl, hrelease, -, hrest⟩ :=
      exists_release (role signPlace op).yieldsTo held
    rw [hrelease]
    exact h.of_append.operator hrest
  · exact h.opening
  · obtain ⟨released, below, rfl, hrelease, -, -⟩ := exists_release (fun _ => true) held
    obtain ⟨-, rfl⟩ := Prod.mk.inj (hclosing.symm.trans hrelease)
    exact h.of_append.of_opening

theorem transduce {c last : Conversion} {ls : List Lexeme} {out : List Token} (h : Settled c.held)
    (hrun : Reckoner.transduce Conversion.step c ls = .ok (out, last)) : Settled last.held := by
  induction ls generalizing c out with
  | nil =>
    cases hrun
    exact h
  | cons l ls ih =>
    obtain ⟨_, next, _, hstep, hrest, -⟩ := transduce_cons_eq_ok.mp hrun
    exact ih (h.step hstep) hrest

end Settled

theorem Reaches.settled {cs : List Char} {c : Conversion} (h : Reaches cs c) : Settled c.held := by
  obtain ⟨front, out, -, hrun⟩ := h
  have hstart : Settled Conversion.start.held := .nil
  exact hstart.transduce hrun

end Held

/-! ### Segments -/

section Segments

variable {held : List Held} {op : Operator} {segment : List Operator}

/-- The operators of a segment are held one right below the other. -/
theorem exists_segments_eq_cons (held : List Held) :
    ∃ top below, segments held = top :: below ∧ top.map .operator <+: held ∧
      ∀ segment ∈ below, segment.map .operator <:+: held := by
  induction held with
  | nil => exact ⟨[], [], rfl, List.prefix_rfl, nofun⟩
  | cons h held ih =>
    obtain ⟨top, below, hsegments, htop, hbelow⟩ := ih
    cases h with
    | opening =>
      refine ⟨[], top :: below, by rw [segments, hsegments], List.nil_prefix, ?_⟩
      exact List.forall_mem_cons.mpr ⟨List.infix_cons htop.isInfix,
        fun segment hsegment => List.infix_cons (hbelow segment hsegment)⟩
    | operator op =>
      refine ⟨op :: top, below, by rw [segments, hsegments]; rfl, ?_, fun segment hsegment => ?_⟩
      · exact (List.prefix_cons_inj _).mpr htop
      · exact List.infix_cons (hbelow segment hsegment)

theorem infix_of_mem_segments (h : segment ∈ segments held) : segment.map .operator <:+: held := by
  obtain ⟨top, below, hsegments, htop, hbelow⟩ := exists_segments_eq_cons held
  rw [hsegments] at h
  rcases List.mem_cons.mp h with rfl | h
  · exact htop.isInfix
  · exact hbelow segment h

theorem segments_append (ops : List Operator) (held : List Held) :
    segments (ops.map .operator ++ held) = (segments held).modifyHead (ops ++ ·) := by
  obtain ⟨top, below, hsegments, -⟩ := exists_segments_eq_cons held
  rw [hsegments]
  induction ops with
  | nil => exact hsegments
  | cons op ops ih =>
    rw [List.map_cons, List.cons_append, segments, ih]
    rfl

theorem Settled.pairwise (h : Settled held) (hsegment : segment ∈ segments held) :
    segment.Pairwise fun op below => op.yieldsTo below = false := by
  have htrans : Trans (fun op below : Operator => op.yieldsTo below = false)
      (fun op below => op.yieldsTo below = false) (fun op below => op.yieldsTo below = false) :=
    ⟨Operator.yieldsTo_eq_false_trans⟩
  have hchain := List.IsChain.infix h (infix_of_mem_segments hsegment)
  rw [List.isChain_map] at hchain
  exact (hchain.imp fun op below hop => hop op below rfl rfl).pairwise

theorem exists_segments_eq_nil_cons (h : ∀ op, held.head? ≠ some (.operator op)) :
    ∃ below, segments held = [] :: below := by
  match held with
  | [] => exact ⟨[], rfl⟩
  | .opening :: held => exact ⟨segments held, rfl⟩
  | .operator op :: held => exact absurd rfl (h op)

end Segments

/-- At every place of a text, each segment of what is held is in layers from bottom to top. Of the
operators that are read, a sign takes nothing off, a power takes off the signs on top and nothing
else, and a sum or a difference takes off all of its segment. -/
theorem segments_layered :
    (∀ cs c, Reaches cs c → ∀ segment ∈ segments c.held, IsLayered segment.reverse) ∧
    ∀ c op, ∃ released rest, TakesOff c op released rest ∧
      (role c.signPlace op = .neg → released = []) ∧
      (role c.signPlace op = .binary .pow →
        (∀ op' ∈ released, op' = .neg) ∧ rest.head? ≠ some (.operator .neg)) ∧
      (role c.signPlace op = .binary .add ∨ role c.signPlace op = .binary .sub →
        ∃ below, segments c.held = released :: below ∧ segments rest = [] :: below) := by
  refine ⟨fun cs c h segment hsegment => isLayered_reverse (h.settled.pairwise hsegment), ?_⟩
  rintro ⟨held, signPlace⟩ op
  obtain ⟨released, rest, rfl, hrelease, hreleased, hrest⟩ :=
    exists_release (role signPlace op).yieldsTo held
  refine ⟨released, rest, ⟨rfl, ?_⟩, fun hneg => ?_,
    fun hpow => ⟨fun op' hop' => ?_, fun htop => ?_⟩, fun hsum => ?_⟩
  · rw [step, hrelease]
  · replace hneg : role signPlace op = .neg := hneg
    rw [hneg, release_neg] at hrelease
    simpa using (Prod.mk.inj hrelease).1.symm
  · replace hpow : role signPlace op = .binary .pow := hpow
    exact Operator.pow_yieldsTo_iff.mp (hpow ▸ hreleased op' hop')
  · have hready := hrest .neg htop
    replace hpow : role signPlace op = .binary .pow := hpow
    rw [hpow, Operator.pow_yieldsTo_iff.mpr rfl] at hready
    cases hready
  · obtain ⟨below, hbelow⟩ := exists_segments_eq_nil_cons fun op' htop => by
      have hready := hrest op' htop
      rw [Operator.yieldsTo_of_sum hsum] at hready
      cases hready
    refine ⟨below, ?_, hbelow⟩
    rw [segments_append, hbelow, List.modifyHead_cons, List.append_nil]

/-- What is held at the end of `1+(2*3^-4`. -/
def insideGroup : Conversion :=
  ⟨[.operator .neg, .operator (.binary .pow), .operator (.binary .mul), .opening,
    .operator (.binary .add)], false⟩

theorem segments_layered_insideGroup :
    (Reaches "1+(2*3^-4".toList insideGroup ∧
        ∀ segment ∈ segments insideGroup.held, IsLayered segment.reverse) ∧
      (∃ released rest, TakesOff insideGroup .pow released rest ∧
        (∀ op ∈ released, op = .neg) ∧ rest.head? ≠ some (.operator .neg)) ∧
      (∃ released rest below, TakesOff insideGroup .sub released rest ∧
        segments insideGroup.held = released :: below ∧ segments rest = [] :: below) ∧
      ∃ rest, TakesOff ⟨insideGroup.held, true⟩ .sub [] rest := by
  have hreaches : Reaches "1+(2*3^-4".toList insideGroup :=
    ⟨_, [.number 1, .number 2, .number 3, .number 4], List.prefix_rfl, by decide +kernel⟩
  obtain ⟨hlayered, hreads⟩ := segments_layered
  obtain ⟨signs, belowSigns, hsigns, -, hpow, -⟩ := hreads insideGroup .pow
  obtain ⟨released, rest, hreleased, -, -, hsub⟩ := hreads insideGroup .sub
  obtain ⟨below, hbelow, hrest⟩ := hsub (.inr rfl)
  obtain ⟨nothing, held, hnothing, hneg, -⟩ := hreads ⟨insideGroup.held, true⟩ .sub
  exact ⟨⟨hreaches, hlayered _ _ hreaches⟩, ⟨signs, belowSigns, hsigns, hpow rfl⟩,
    ⟨released, rest, below, hreleased, hbelow, hrest⟩, held, hneg rfl ▸ hnothing⟩

end Reckoner
