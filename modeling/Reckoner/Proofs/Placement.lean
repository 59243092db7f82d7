import Mathlib.Data.List.Chain
import Reckoner.Proofs.Lexemes

/-!
# Where the lexemes of an expression stand

The grammar groups operands by precedence. Which texts it derives depends on much less: an operand
and an operator have to take turns, and every group has to be closed. `Placed` reads the lexemes
once to check this, with a flag and a counter and no precedences, and `derives_iff_placed` says
that it accepts the texts of the grammar.

To the right of a text of the grammar an operator and another operand can always be put: the tree
then is regrouped by precedence (`Derives.exists_binary`).
-/

namespace Reckoner

/-- No operand starts right after the end of another. -/
def Separated (ls : List Lexeme) : Prop :=
  ls.IsChain fun l l' => ¬ (l.endsOperand = true ∧ l'.startsOperand = true)

instance (ls : List Lexeme) : Decidable (Separated ls) := inferInstanceAs (Decidable (ls.IsChain _))

/-- `Placed operand depth ls`: the lexemes `ls` complete a text in which `depth` groups are open and
which goes on with an operand, or else with what can follow one. -/
inductive Placed : Bool → Nat → List Lexeme → Prop where
  | stop : Placed false 0 []
  | number {depth : Nat} {run : List Char} {ls : List Lexeme} (numeral : IsNumeral run)
      (next : Placed false depth ls) : Placed true depth (.number run :: ls)
  | opening {depth : Nat} {ls : List Lexeme} (next : Placed true (depth + 1) ls) :
      Placed true depth (.opening :: ls)
  | sign {depth : Nat} {ls : List Lexeme} (next : Placed true depth ls) :
      Placed true depth (.operator .sub :: ls)
  | operator {depth : Nat} {ls : List Lexeme} (op : BinaryOp) (next : Placed true depth ls) :
      Placed false depth (.operator op :: ls)
  | closing {depth : Nat} {ls : List Lexeme} (next : Placed false depth ls) :
      Placed false (depth + 1) (.closing :: ls)

theorem Placed.separated {operand : Bool} {depth : Nat} {ls : List Lexeme}
    (h : Placed operand depth ls) :
    Separated ls ∧ (operand = false → ∀ l ∈ ls.head?, l.startsOperand = false) := by
  unfold Separated
  induction h with
  | stop => simp
  | number numeral _ ih =>
    exact ⟨List.isChain_cons.mpr ⟨by simpa [Lexeme.endsOperand] using ih.2, ih.1⟩, by simp⟩
  | opening _ ih | sign _ ih =>
    exact ⟨List.isChain_cons.mpr ⟨by simp [Lexeme.endsOperand], ih.1⟩, by simp⟩
  | operator op _ ih =>
    refine ⟨List.isChain_cons.mpr ⟨by simp [Lexeme.endsOperand], ih.1⟩, ?_⟩
    simp [Lexeme.startsOperand]
  | closing _ ih =>
    refine ⟨List.isChain_cons.mpr ⟨by simpa [Lexeme.endsOperand] using ih.2, ih.1⟩, ?_⟩
    simp [Lexeme.startsOperand]

/-! ### From derivations to placement -/

theorem Derives.placed {level : Level} {cs : List Char} {e : Expr} (h : Derives level cs e)
    {depth : Nat} {ls : List Lexeme} (hls : Placed false depth ls) :
    Placed true depth (lexemes cs ++ ls) := by
  induction h generalizing depth ls with
  | number numeral _ =>
    rw [numeral.lexemes_eq]
    exact .number numeral hls
  | group _ ih =>
    rw [lexemes_group, List.append_assoc]
    exact .opening (ih (.closing hls))
  | neg _ ih =>
    rw [lexemes_sign]
    exact .sign (ih hls)
  | ofSigned _ ih | ofPower _ ih | ofProduct _ ih => exact ih hls
  | pow _ _ ihl ihr =>
    rw [show '^' = BinaryOp.pow.symbol from rfl, lexemes_operator, List.append_assoc]
    exact ihl (.operator .pow (ihr hls))
  | product _ _ _ ihl ihr | sum _ _ _ ihl ihr =>
    rw [lexemes_operator, List.append_assoc]
    exact ihl (.operator _ (ihr hls))

/-! ### Regrouping -/

namespace Derives

variable {cs ds : List Char} {e f : Expr}

theorem toSum (h : Derives .signed cs e) : Derives .sum cs e :=
  .ofProduct (.ofPower (.ofSigned h))

/-- Powers group to the right, so the last operand of a power is the one that is raised. -/
theorem exists_pow (h : Derives .power cs e) (hds : Derives .signed ds f) :
    ∃ g, Derives .power (cs ++ '^' :: ds) g := by
  generalize hlevel : Level.power = level at h
  induction h with
  | ofSigned h _ => exact ⟨_, .pow h (.ofSigned hds)⟩
  | @pow _ _ l _ left _ _ ih =>
    obtain ⟨g, hg⟩ := ih rfl
    refine ⟨.binary .pow l g, ?_⟩
    rw [List.append_assoc, List.cons_append]
    exact .pow left hg
  | _ => cases hlevel

theorem exists_pow_product (h : Derives .product cs e) (hds : Derives .signed ds f) :
    ∃ g, Derives .product (cs ++ '^' :: ds) g := by
  cases h with
  | ofPower h =>
    obtain ⟨g, hg⟩ := h.exists_pow hds
    exact ⟨g, .ofPower hg⟩
  | @product op _ _ l _ hop left right =>
    obtain ⟨g, hg⟩ := right.exists_pow hds
    refine ⟨.binary op l g, ?_⟩
    rw [List.append_assoc, List.cons_append]
    exact .product hop left hg

/-- What can be put behind a product can be put behind a sum, whose last summand is a product. -/
theorem exists_sum {op : BinaryOp} (h : Derives .sum cs e)
    (hproduct : ∀ {cs e}, Derives .product cs e → ∃ g, Derives .product (cs ++ op.symbol :: ds) g) :
    ∃ g, Derives .sum (cs ++ op.symbol :: ds) g := by
  cases h with
  | ofProduct h =>
    obtain ⟨g, hg⟩ := hproduct h
    exact ⟨g, .ofProduct hg⟩
  | @sum op' _ _ l _ hop left right =>
    obtain ⟨g, hg⟩ := hproduct right
    refine ⟨.binary op' l g, ?_⟩
    rw [List.append_assoc, List.cons_append]
    exact .sum hop left hg

theorem exists_binary (op : BinaryOp) (h : Derives .sum cs e) (hds : Derives .signed ds f) :
    ∃ g, Derives .sum (cs ++ op.symbol :: ds) g := by
  cases op with
  | add => exact ⟨_, .sum (.inl rfl) h (.ofPower (.ofSigned hds))⟩
  | sub => exact ⟨_, .sum (.inr rfl) h (.ofPower (.ofSigned hds))⟩
  | mul => exact h.exists_sum fun h' => ⟨_, .product (.inl rfl) h' (.ofSigned hds)⟩
  | div => exact h.exists_sum fun h' => ⟨_, .product (.inr rfl) h' (.ofSigned hds)⟩
  | pow => exact h.exists_sum fun h' => h'.exists_pow_product hds

end Derives

/-! ### From placement to derivations -/

/-- The text `cs` ends with an operand: outside all groups it is a text of the grammar, inside one
the innermost group holds such a text, and what is before the group can go on with an operand. -/
def Ended : Nat → List Char → Prop
  | 0, cs => ∃ e, Derives .sum cs e
  | depth + 1, cs => ∃ before inner e, cs = before ++ '(' :: inner ∧ Derives .sum inner e ∧
      ∀ ds f, Derives .signed ds f → Ended depth (before ++ ds)

/-- The text `cs` can go on with an operand. -/
def Awaits (depth : Nat) (cs : List Char) : Prop :=
  ∀ ds f, Derives .signed ds f → Ended depth (cs ++ ds)

variable {depth : Nat} {cs : List Char}

theorem Awaits.opening (h : Awaits depth cs) : Awaits (depth + 1) (cs ++ ['(']) := by
  intro ds f hds
  exact ⟨cs, ds, f, by simp, hds.toSum, h⟩

theorem Awaits.sign (h : Awaits depth cs) : Awaits depth (cs ++ ['-']) := by
  intro ds f hds
  rw [List.append_assoc]
  exact h _ _ hds.neg

theorem Ended.operator (op : BinaryOp) (h : Ended depth cs) :
    Awaits depth (cs ++ [op.symbol]) := by
  intro ds f hds
  rw [List.append_assoc]
  cases depth with
  | zero =>
    obtain ⟨e, he⟩ := h
    exact he.exists_binary op hds
  | succ depth =>
    obtain ⟨before, inner, e, rfl, he, hbefore⟩ := h
    obtain ⟨g, hg⟩ := he.exists_binary op hds
    exact ⟨before, _, g, by simp, hg, hbefore⟩

theorem Ended.closing (h : Ended (depth + 1) cs) : Ended depth (cs ++ [')']) := by
  obtain ⟨before, inner, e, rfl, he, hbefore⟩ := h
  rw [List.append_assoc]
  exact hbefore _ _ (.group he)

/-- What is placed well completes what was read before it. -/
theorem Placed.exists_derives {operand : Bool} {ls : List Lexeme} (h : Placed operand depth ls)
    (hcs : if operand then Awaits depth cs else Ended depth cs) :
    ∃ e, Derives .sum (cs ++ ls.flatMap Lexeme.chars) e := by
  induction h generalizing cs with
  | stop => simpa [Ended] using hcs
  | number numeral _ ih =>
    obtain ⟨v, hv⟩ := numeral.exists_value
    rw [List.flatMap_cons, ← List.append_assoc]
    exact ih (hcs _ _ (.number numeral hv))
  | opening _ ih =>
    rw [List.flatMap_cons, ← List.append_assoc]
    exact ih (Awaits.opening hcs)
  | sign _ ih =>
    rw [List.flatMap_cons, ← List.append_assoc]
    exact ih (Awaits.sign hcs)
  | operator op _ ih =>
    rw [List.flatMap_cons, ← List.append_assoc]
    exact ih (Ended.operator op hcs)
  | closing _ ih =>
    rw [List.flatMap_cons, ← List.append_assoc]
    exact ih (Ended.closing hcs)

theorem derives_iff_placed (cs : List Char) :
    (∃ e, Derives .sum cs e) ↔ Placed true 0 (lexemes cs) := by
  constructor
  · rintro ⟨e, h⟩
    simpa using h.placed .stop
  · intro h
    have hawaits : Awaits 0 [] := fun ds f hds => ⟨f, hds.toSum⟩
    simpa [flatMap_chars_lexemes] using h.exists_derives hawaits

end Reckoner
