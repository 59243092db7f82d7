import Reckoner.Operator

/-!
# Faults

The reasons for which a text is not evaluated or an equation is not solved. `Fault.message` is
the wording shown to the user; characters and pieces of the text stand in it as they were typed.
-/

namespace Reckoner

inductive Paren where
  | opening
  | closing
  deriving DecidableEq, Repr

def Paren.symbol : Paren → Char
  | .opening => '('
  | .closing => ')'

/-- What a term of an equation counts for. -/
inductive TermKind where
  | unknown
  | constant
  deriving DecidableEq, Repr

inductive Fault where
  | emptyInput
  | invalidCharacter (c : Char)
  /-- A closing parenthesis without an opening one before it, or an opening one never closed. -/
  | unmatched (paren : Paren)
  /-- An operator with fewer operands than it takes. -/
  | missingOperand (op : Operator)
  /-- Another number of values than one is left at the end. -/
  | leftoverValues (count : Nat)
  /-- A run of digits and points without a digit. -/
  | badNumber (run : String)
  | missingEquals
  | rightSideNotNumber (right : String)
  | badTerm (term : String) (kind : TermKind)
  /-- The coefficient of the unknown is zero, or as good as zero. -/
  | noUniqueSolution
  deriving DecidableEq, Repr

namespace Fault

/-- A text between double quotes, otherwise as it is. -/
def quoted (s : String) : String := "\"" ++ s ++ "\""

def message : Fault → String
  | emptyInput => "Entrée vide"
  | invalidCharacter c => "Caractère invalide : '" ++ c.toString ++ "'"
  | unmatched paren => "Parenthèse '" ++ paren.symbol.toString ++ "' non appariée"
  | missingOperand op => "Opérande manquant pour '" ++ op.symbol ++ "'"
  | leftoverValues count => "Expression invalide (" ++ toString count ++ " valeur(s) restante(s))"
  | badNumber run => "Nombre invalide : " ++ quoted run
  | missingEquals => "Aucun '=' trouvé"
  | rightSideNotNumber right => "Le membre de droite doit être un nombre : " ++ quoted right
  | badTerm term .unknown => "Terme en x invalide : " ++ quoted term
  | badTerm term .constant => "Terme constant invalide : " ++ quoted term
  | noUniqueSolution => "Aucun terme en x, ou infinité / absence de solutions"

theorem message_ne_empty (fault : Fault) : fault.message ≠ "" := by
  have happend {s : String} (t : String) (h : s ≠ "") : s ++ t ≠ "" :=
    fun heq => h (String.append_eq_empty_iff.mp heq).1
  cases fault with
  | emptyInput | missingEquals | noUniqueSolution => exact nofun
  | badNumber | rightSideNotNumber => exact happend _ (by decide)
  | badTerm term kind => cases kind <;> exact happend _ (by decide)
  | _ => exact happend _ (happend _ (by decide))

end Fault

end Reckoner
