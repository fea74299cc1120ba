import Mathlib.Data.Rat.Lemmas

/- etdb_atof and etdb_atoi of etdb_string.c. What the float and double operations round to is left
   open: the two rounding functions are applied where the source computes in the type. -/
namespace EtdbString

structure Rounding where
  single : ℚ → ℚ
  double : ℚ → ℚ

def exactly : Rounding := ⟨id, id⟩

def minus : UInt8 := 45
def plus : UInt8 := 43
def dot : UInt8 := 46

def isDigit (c : UInt8) : Bool := 48 ≤ c && c ≤ 57
def digit (c : UInt8) : ℚ := ((c.toNat - 48 : Nat) : ℚ)

/-- The literal 0.1 as a double. -/
def Rounding.tenth (r : Rounding) : ℚ := r.double (1 / 10)

/-- One byte of the loop; a sign is tested for the flag and then refused like any other
    byte that is neither a dot nor a digit. -/
def atofByte (r : Rounding) (c : UInt8) (ret step : ℚ) : Option (ℚ × ℚ) :=
  if c = dot then some (ret, r.single r.tenth)
  else if isDigit c then
    if step < 1 then some (r.double (ret + r.single (digit c * step)),
      r.single (r.double (step * r.tenth)))
    else some (r.double (r.double (ret * 10) + digit c), step)
  else none

def atofLoop (r : Rounding) : List UInt8 → ℚ → ℚ → Option ℚ
  | [], ret, _ => some ret
  | c :: rest, ret, step => do
    let (ret, step) ← atofByte r c ret step
    atofLoop r rest ret step

/-- etdb_atof; none where it returns -1. -/
def atof (r : Rounding) (data : List UInt8) : Option ℚ :=
  let flag : ℚ := if data.head? = some minus then -1 else 1
  (atofLoop r data 0 1).map (· * flag)

def wrapInt (i : Int) : Int := i.bmod 4294967296

def atoiLoop : List UInt8 → Int → Option Int
  | [], ret => some ret
  | c :: rest, ret => if isDigit c then atoiLoop rest
      (wrapInt (ret * 10 + (c.toNat - 48 : Nat))) else none

def atoi (data : List UInt8) : Option Int :=
  let flag : Int := if data.head? = some minus then -1 else 1
  (atoiLoop data 0).map (· * flag)

end EtdbString
