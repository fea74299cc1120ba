import Etdb.Text.Numbers
import Etdb.Text.Split
import Etdb.Server.Stores

/- hietdb.c. A function of the library puts the strings of a request together and takes
   what it gives back out of the reply; etdb_client_request lies between the two. -/
namespace EtdbClient
open EtdbDatabase EtdbServer

/-- The strings that a function sends, and what it gives back for the strings that are
    returned, none for NULL. -/
structure Procedure (α : Type) where
  strs : List (List UInt8)
  result : Option (List (List UInt8)) → α

def errorText : List UInt8 := bytes ['+', 'E', 'R', 'R', 'O', 'R']

def status : Option (List (List UInt8)) → List UInt8
  | some (str :: _) => str
  | _ => errorText

/-- The status, and the string behind it; *value is left alone when there is none. -/
def statusValue : Option (List (List UInt8)) → List UInt8 × Option (List UInt8)
  | some (str :: value :: _) => (str, some value)
  | resp => (status resp, none)

def statusList : Option (List (List UInt8)) → List UInt8 × Option (List (List UInt8))
  | some (str :: rest) => (str, some (str :: rest))
  | resp => (status resp, none)

def command (name : List Char) (args : List (List UInt8)) : Procedure (List UInt8) :=
  ⟨bytes name :: args, status⟩

def query (name : List Char) (args : List (List UInt8)) : Procedure (List UInt8 × Option (List UInt8)) :=
  ⟨bytes name :: args, statusValue⟩

def listing (name : List Char) (args : List (List UInt8)) :
    Procedure (List UInt8 × Option (List (List UInt8))) := ⟨bytes name :: args, statusList⟩

def kvSet (key value : List UInt8) := command ['s', 'e', 't'] [key, value]
def kvGet (key : List UInt8) := query ['g', 'e', 't'] [key]
def kvDel (key : List UInt8) := command ['d', 'e', 'l'] [key]
def kvMatchlongest (key : List UInt8) := listing "matchlongest".toList [key]

def hashSet (tb key value : List UInt8) := command ['h', 's', 'e', 't'] [tb, key, value]
def hashGet (tb key : List UInt8) := query ['h', 'g', 'e', 't'] [tb, key]
def hashDel (tb key : List UInt8) := command ['h', 'd', 'e', 'l'] [tb, key]

def setAdd (sn item : List UInt8) := command ['s', 'a', 'd', 'd'] [sn, item]
def setDel (sn item : List UInt8) := command ['s', 'd', 'e', 'l'] [sn, item]
def setMembers (sn : List UInt8) := listing "smembers".toList [sn]
/-- Whether the item is there is in the second string, which is not looked at. -/
def setIsmember (sn item : List UInt8) := command "sismember".toList [sn, item]

def lstLpush (ln item : List UInt8) := command ['l', 'p', 'u', 's', 'h'] [ln, item]
def lstRpush (ln item : List UInt8) := command ['r', 'p', 'u', 's', 'h'] [ln, item]
def lstLtop (ln : List UInt8) := query ['l', 't', 'o', 'p'] [ln]
def lstRtop (ln : List UInt8) := query ['r', 't', 'o', 'p'] [ln]
def lstLpop (ln : List UInt8) := command ['l', 'p', 'o', 'p'] [ln]
def lstRpop (ln : List UInt8) := command ['r', 'p', 'o', 'p'] [ln]

/-- sprintf with "%f" into 128 bytes. A longer text is written over what lies behind them. -/
def coordinate (q : ℚ) : Option (List UInt8) :=
  let text := printFixed 6 q
  if text.length < 128 then some text else none

def spatialPointSet (id : List UInt8) (lat lon : ℚ) : Option (Procedure (List UInt8)) := do
  let latStr ← coordinate lat
  let lonStr ← coordinate lon
  some (command ['s', 'p', 's', 'e', 't'] [id, latStr, lonStr])

/-- What etdb_atof leaves in *ret, whatever it returns. -/
def atofStop (r : EtdbString.Rounding) : List UInt8 → ℚ → ℚ → ℚ
  | [], ret, _ => ret
  | c :: rest, ret, step =>
    match EtdbString.atofByte r c ret step with
    | some (ret, step) => atofStop r rest ret step
    | none => ret

def atofRet (r : EtdbString.Rounding) (data : List UInt8) : ℚ :=
  (EtdbString.atof r data).getD (atofStop r data 0 1)

/-- The point of a reply: three pieces, the last without its parentheses. A piece that is
    shorter than those is copied with a length below 0, which ends the run. -/
def readPoint (r : EtdbString.Rounding) (splits : List EtdbString.Piece) (value : List UInt8) :
    Option (Option (ℚ × ℚ × List UInt8)) := do
  let cut ← EtdbString.strSplit value 32 splits 3
  if cut.splitNum = 3 then
    match cut.splits with
    | lat :: lon :: code :: _ =>
      if 2 ≤ code.len then
        some (some (atofRet r (lat.bytes value), atofRet r (lon.bytes value),
          (code.bytes value).tail.dropLast))
      else none
    | _ => none
  else some none

def spatialPointGet (r : EtdbString.Rounding) (splits : List EtdbString.Piece) (id : List UInt8) :
    Procedure (Option (List UInt8 × Option (ℚ × ℚ × List UInt8))) where
  strs := [bytes ['s', 'p', 'g', 'e', 't'], id]
  result resp :=
    match statusValue resp with
    | (str, none) => some (str, none)
    | (str, some value) => (readPoint r splits value).map fun point => (str, point)

def spatialPointRectQuery (lat1 lat2 lon1 lon2 : ℚ) :
    Option (Procedure (List UInt8 × Option (List (List UInt8)))) := do
  let lat1Str ← coordinate lat1
  let lat2Str ← coordinate lat2
  let lon1Str ← coordinate lon1
  let lon2Str ← coordinate lon2
  some (listing ['s', 'p', 'r', 'e', 'c', 't'] [lat1Str, lat2Str, lon1Str, lon2Str])

end EtdbClient
