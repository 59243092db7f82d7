import Reckoner.Number.Shortest.Basic

/-!
# Numbers as text

Three layouts of a double, all made from its shortest decimal or its exact whole digits:

* `plainText` never writes an exponent, nor a point after a whole number; infinities are `inf`
  and `-inf`;
* `jsonText?` always writes a point or an exponent: positional from `10⁻⁵` up to `10¹⁶`,
  scientific beyond, and `none` where JSON has no number;
* `stepText` is the layout of the working: a number within `10⁻⁹` of a whole one is written as
  that whole number, any other as `plainText` writes it.
-/

namespace Reckoner

namespace Layout

def sign (negative : Bool) : List Char :=
  if negative then ['-'] else []

def digits (n : Nat) : List Char :=
  Nat.toDigits 10 n

def zeros (n : Nat) : List Char :=
  List.replicate n '0'

/-- Where the point stands, counted from the front of the digits; zero or less when zeros have to
be written between the point and the digits. -/
def pointPlace (d : Decimal) : Int :=
  (digits d.digits).length + d.exponent

/-- Without an exponent; `whole` follows the last digit of a whole number. -/
def positional (whole : List Char) (d : Decimal) : List Char :=
  let ds := digits d.digits
  let p := pointPlace d
  if 0 ≤ d.exponent then ds ++ zeros d.exponent.toNat ++ whole
  else if 0 < p then ds.take p.toNat ++ '.' :: ds.drop p.toNat
  else '0' :: '.' :: zeros (-p).toNat ++ ds

/-- One digit before the point, no point if there are no others, and an exponent that always has
a sign. -/
def scientific (d : Decimal) : List Char :=
  let exponent := pointPlace d - 1
  let mantissa := match digits d.digits with
    | [] => []
    | [c] => [c]
    | c :: others => c :: '.' :: others
  mantissa ++ 'e' :: (if exponent < 0 then '-' else '+') :: digits exponent.natAbs

/-- Shortest digits without an exponent; of two equally near decimals the greater. -/
def plain : Binary64 → List Char
  | .nan => "NaN".toList
  | .infinite negative => sign negative ++ "inf".toList
  | .finite negative 0 => sign negative ++ ['0']
  | .finite negative n => sign negative ++ positional [] (shortest .up n)

/-- The shortest digits as a JSON number; of two equally near decimals the one with an even last
digit. Positional when the leading digit stands for `10⁻⁵` to `10¹⁵`. -/
def json? : Binary64 → Option (List Char)
  | .nan | .infinite _ => none
  | .finite negative 0 => some (sign negative ++ "0.0".toList)
  | .finite negative n =>
    let d := shortest .toEven n
    let p := pointPlace d
    some (sign negative ++
      if -5 < p ∧ p ≤ 16 then positional ['.', '0'] d else scientific d)

/-- How far from a whole number, in units of `2⁻¹⁰⁷⁴`, a number must be to be written with its
fraction: the double nearest to `10⁻⁹`. -/
def tolerance : Nat :=
  Binary64.gridPoint (Decimal.index ⟨1, -9⟩)

/-- The whole number nearest to the `n`-th magnitude, the greater one half way. -/
def nearestWhole (n : Nat) : Nat :=
  (Binary64.gridPoint n + Binary64.one / 2) / Binary64.one

def NearWhole (n : Nat) : Prop :=
  let units := Binary64.gridPoint n
  let whole := nearestWhole n * Binary64.one
  units < whole + tolerance ∧ whole < units + tolerance

instance (n : Nat) : Decidable (NearWhole n) := inferInstanceAs (Decidable (_ ∧ _))

/-- All digits of a number near a whole one, zero never with a sign; else as `plain`. -/
def step : Binary64 → List Char
  | .finite negative n =>
    if NearWhole n then
      let whole := nearestWhole n
      sign (negative && whole != 0) ++ digits whole
    else plain (.finite negative n)
  | x => plain x

theorem digits_ne_nil (n : Nat) : digits n ≠ [] :=
  Nat.toDigits_ne_nil

theorem positional_ne_nil (whole : List Char) (d : Decimal) : positional whole d ≠ [] := by
  unfold positional
  simp only
  split
  · simp [digits_ne_nil]
  · split <;> simp

theorem plain_ne_nil (x : Binary64) : plain x ≠ [] := by
  cases x with
  | nan => decide
  | infinite negative => cases negative <;> decide
  | finite negative n =>
    cases n with
    | zero => simp [plain]
    | succ n => simp [plain, positional_ne_nil]

theorem step_ne_nil (x : Binary64) : step x ≠ [] := by
  cases x with
  | finite negative n =>
    rw [step]
    split
    · simp [digits_ne_nil]
    · exact plain_ne_nil _
  | nan => exact plain_ne_nil .nan
  | infinite negative => exact plain_ne_nil (.infinite negative)

end Layout

/-- The shortest text that reads back to the number, without an exponent. -/
def plainText (x : Float) : String :=
  String.ofList (Layout.plain (.ofFloat x))

/-- The shortest JSON number that reads back to the number, if it is finite. -/
def jsonText? (x : Float) : Option String :=
  (Layout.json? (.ofFloat x)).map String.ofList

def stepText (x : Float) : String :=
  String.ofList (Layout.step (.ofFloat x))

theorem plainText_ne_empty (x : Float) : plainText x ≠ "" := by
  rw [plainText, ne_eq, String.ofList_eq_empty_iff]
  exact Layout.plain_ne_nil _

theorem stepText_ne_empty (x : Float) : stepText x ≠ "" := by
  rw [stepText, ne_eq, String.ofList_eq_empty_iff]
  exact Layout.step_ne_nil _

end Reckoner
