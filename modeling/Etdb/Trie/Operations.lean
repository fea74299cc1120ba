import Etdb.Trie.Place

/- The operations on families of nodes: sibling chains, relocation, and the calls
   etdb_trie_update, etdb_trie_erase and etdb_trie_exact_match_search. Where the
   source updates its caller's `from` through a pointer, the new value is returned.
   Loops over chains take fuel and give none when it runs out. -/
namespace EtdbTrie
open ByteXor
namespace Trie

/-- etdb_trie_push_sibling; with `flag` a family whose chain starts with label 0
    takes the new label behind it. -/
def pushSibling (t : Trie) (origin base : Int) (label : UInt8) (flag : Bool) : Option Trie := do
  let i ← t.ninfoAt origin
  if flag ∧ i.child = 0 then do
    let z ← t.ninfoAt (xorByte base i.child)
    let t ← t.writeSibling (xorByte base label) z.sibling
    t.writeSibling (xorByte base i.child) label
  else do
    let t ← t.writeSibling (xorByte base label) i.child
    t.writeChild origin label

/-- The loop of etdb_trie_pop_sibling once it stands on a sibling field. -/
def popLater (t : Trie) (base : Int) (label : UInt8) : Nat → UInt8 → Option Trie
  | 0, _ => none
  | fuel + 1, c => do
    let i ← t.ninfoAt (xorByte base c)
    if i.sibling = label then do
      let n ← t.ninfoAt (xorByte base label)
      t.writeSibling (xorByte base c) n.sibling
    else t.popLater base label fuel i.sibling

def popSibling (t : Trie) (origin base : Int) (label : UInt8) : Option Trie := do
  let i ← t.ninfoAt origin
  if i.child = label then do
    let n ← t.ninfoAt (xorByte base label)
    t.writeChild origin n.sibling
  else t.popLater base label 256 i.child

/-- etdb_trie_consult: whether the chain of `cP` is the longer one. -/
def consult (t : Trie) (baseN baseP : Int) : Nat → UInt8 → UInt8 → Option Bool
  | 0, _, _ => none
  | fuel + 1, cN, cP => do
    let n ← t.ninfoAt (xorByte baseN cN)
    let p ← t.ninfoAt (xorByte baseP cP)
    if n.sibling ≠ 0 ∧ p.sibling ≠ 0 then t.consult baseN baseP fuel n.sibling p.sibling
    else some (p.sibling ≠ 0)

def collect (t : Trie) (base : Int) : Nat → UInt8 → Option (List UInt8)
  | 0, _ => none
  | fuel + 1, c =>
    if c = 0 then some []
    else do
      let i ← t.ninfoAt (xorByte base c)
      let rest ← t.collect base fuel i.sibling
      some (c :: rest)

/-- etdb_trie_set_child, as the list written to the array of 256 labels. -/
def setChild (t : Trie) (base : Int) (c : UInt8) (label : Option UInt8) : Option (List UInt8) := do
  let labels ← if c = 0 then do
      let i ← t.ninfoAt (xorByte base c)
      let rest ← t.collect base 256 i.sibling
      some (c :: label.toList ++ rest)
    else do
      let rest ← t.collect base 256 c
      some (label.toList ++ rest)
  if labels.length ≤ 256 then some labels else none

/-- The children of a moved node get its new index as their check. -/
def reparent (t : Trie) (base dest : Int) : Nat → UInt8 → Option Trie
  | 0, _ => none
  | fuel + 1, c => do
    let t ← t.writeCheck (xorByte base c) dest
    let i ← t.ninfoAt (xorByte base c)
    if i.sibling ≠ 0 then t.reparent base dest fuel i.sibling else some t

def moveNode (t : Trie) (p : UInt8) (dest dest_ : Int) : Option Trie := do
  let n_ ← t.nodeAt dest_
  let t ← t.writeBase dest n_.base
  if 0 < n_.base ∧ p ≠ 0 then do
    let i_ ← t.ninfoAt dest_
    let t ← t.writeChild dest i_.child
    t.reparent n_.base dest 256 i_.child
  else some t

/-- The cell the conflict was about becomes the new child of `origin`. -/
def takeOver (t : Trie) (dest_ origin : Int) (labelN : UInt8) : Option Trie := do
  let t ← t.pushSibling origin (xorByte dest_ labelN) labelN true
  let t ← t.writeChild dest_ 0
  let t ← t.writeBase dest_ (if labelN ≠ 0 then -1 else 0)
  t.writeCheck dest_ origin

/-- One round of the loop of etdb_trie_resolve: the child `p` of `origin` goes from the
    family's old base `base_` to its new base. -/
def resolveRound (flag : Bool) (toPn origin base base_ : Int) (labelN p next : UInt8) (fromN : Int)
    (t : Trie) : Option (Int × Trie) := do
  let (dest, t) ← t.popEmptyNode base p origin
  let dest_ := xorByte base_ p
  let t ← t.writeSibling dest next
  if flag ∧ dest_ = toPn then some (fromN, t)
  else do
    let t ← t.moveNode p dest dest_
    let fromN := if !flag ∧ dest_ = fromN then dest else fromN
    if !flag ∧ dest_ = toPn then do
      let t ← t.takeOver dest_ fromN labelN
      some (fromN, t)
    else do
      let t ← t.pushEmptyNode dest_
      some (fromN, t)

def resolveLoop (flag : Bool) (toPn origin base base_ : Int) (labelN : UInt8) :
    List UInt8 → Int → Trie → Option (Int × Trie)
  | [], fromN, t => some (fromN, t)
  | p :: rest, fromN, t => do
    let (fromN, t) ← resolveRound flag toPn origin base base_ labelN p (rest.headD 0) fromN t
    resolveLoop flag toPn origin base base_ labelN rest fromN t

def placeFor (t : Trie) (first : UInt8) (rest : List UInt8) : Option (Int × Trie) :=
  if rest = [] then t.findPlace else t.findPlaceInterval first rest

def relocate (t : Trie) (flag : Bool) (toPn origin base_ : Int) (labelN : UInt8) (fromN : Int) :
    List UInt8 → Option (Int × Int × Trie)
  | [] => none
  | first :: rest => do
    let (e, t) ← t.placeFor first rest
    let base := xorByte e first
    let t ← if flag ∧ first = labelN then t.writeChild origin labelN else some t
    let t ← t.writeBase origin base
    let (fromN, t) ← resolveLoop flag toPn origin base base_ labelN (first :: rest) fromN t
    some (if flag then xorByte base labelN else toPn, fromN, t)

/-- etdb_trie_resolve. The smaller of the two families moves; the result is the new
    child of `fromN` and where `fromN` then is. -/
def resolve (t : Trie) (fromN baseN : Int) (labelN : UInt8) : Option (Int × Int × Trie) := do
  let toPn := xorByte baseN labelN
  let n ← t.nodeAt toPn
  let fromP := n.check
  let p ← t.nodeAt fromP
  let infoN ← t.ninfoAt fromN
  let infoP ← t.ninfoAt fromP
  let flag ← t.consult baseN p.base 256 infoN.child infoP.child
  if flag then do
    let labels ← t.setChild baseN infoN.child (some labelN)
    t.relocate true toPn fromN baseN labelN fromN labels
  else do
    let labels ← t.setChild p.base infoP.child none
    t.relocate false toPn fromP p.base labelN fromN labels

def addChild (t : Trie) (origin base : Int) (label : UInt8) : Option (Int × Int × Trie) := do
  let (dest, t) ← t.popEmptyNode base label origin
  let t ← t.pushSibling origin (xorByte dest label) label (0 ≤ base)
  some (dest, origin, t)

def follow (t : Trie) (origin : Int) (label : UInt8) : Option (Int × Int × Trie) := do
  let n ← t.nodeAt origin
  if n.base < 0 then t.addChild origin n.base label
  else do
    let m ← t.nodeAt (xorByte n.base label)
    if m.check < 0 then t.addChild origin n.base label
    else if m.check ≠ origin then t.resolve origin n.base label
    else some (xorByte n.base label, origin, t)

def percent : UInt8 := 37
def zeroDigit : UInt8 := 48

/-- etdb_trie_update_entry: NUL becomes "%0" and '%' becomes "%%". -/
def updateEntry (t : Trie) (origin : Int) (word : UInt8) : Option (Int × Trie) := do
  if word = 0 then
    let (dest, _, t) ← t.follow origin percent
    let (dest, _, t) ← t.follow dest zeroDigit
    some (dest, t)
  else if word = percent then
    let (dest, _, t) ← t.follow origin percent
    let (dest, _, t) ← t.follow dest percent
    some (dest, t)
  else
    let (dest, _, t) ← t.follow origin word
    some (dest, t)

def updateEntries (t : Trie) (origin : Int) : List UInt8 → Option (Int × Trie)
  | [] => some (origin, t)
  | word :: rest => do
    let (origin, t) ← t.updateEntry origin word
    t.updateEntries origin rest

/-- etdb_trie_update: the previous value and the new trie. -/
def update (t : Trie) (key : List UInt8) (value : Int) : Option (Int × Trie) :=
  if key = [] then some (-1, t)
  else do
    let (origin, t) ← t.updateEntries 0 key
    let (dest, _, t) ← t.follow origin 0
    let n ← t.nodeAt dest
    let t ← t.writeBase dest value
    some (n.base, t)

/-- The switch of etdb_trie_find: the first label of a key byte and the one that
    has to follow it. -/
def wordLabels (word : UInt8) : UInt8 × Option UInt8 :=
  if word = 0 then (percent, some zeroDigit)
  else if word = percent then (percent, some percent)
  else (word, none)

def findStep (t : Trie) (origin : Int) (label : UInt8) : Option (Option Int) := do
  let n ← t.nodeAt origin
  let m ← t.nodeAt (xorByte n.base label)
  some (if m.check ≠ origin then none else some (xorByte n.base label))

def findAgain (t : Trie) (origin : Int) : Option UInt8 → Option (Option Int)
  | none => some (some origin)
  | some label => t.findStep origin label

/-- etdb_trie_find: its answer and the node where it stopped. -/
def find (t : Trie) (origin : Int) : List UInt8 → Option (Int × Int)
  | [] => do
    let n ← t.nodeAt origin
    let m ← t.nodeAt (xorByte n.base 0)
    some (if m.check ≠ origin then noValue else m.base, origin)
  | word :: rest => do
    match ← t.findStep origin (wordLabels word).1 with
    | none => some (noPath, origin)
    | some dest =>
      match ← t.findAgain dest (wordLabels word).2 with
      | none => some (noPath, dest)
      | some dest => t.find dest rest

def exactMatchSearch (t : Trie) (key : List UInt8) : Option Int := do
  let (i, _) ← t.find 0 key
  some (if i = noPath then noValue else i)

/-- The climb of etdb_trie_erase_impl: `e` goes, and its parent with it if it has no
    other child. -/
def eraseLoop : Nat → Int → Int → Trie → Option Trie
  | 0, _, _, _ => none
  | fuel + 1, origin, e, t => do
    let n ← t.nodeAt origin
    let i ← t.ninfoAt origin
    let first ← t.ninfoAt (xorByte n.base i.child)
    if first.sibling ≠ 0 then do
      let t ← t.popSibling origin n.base (lowXor n.base e)
      let t ← t.pushEmptyNode e
      let _ ← t.nodeAt origin
      some t
    else do
      let t ← t.pushEmptyNode e
      let n ← t.nodeAt origin
      eraseLoop fuel n.check origin t

/-- etdb_trie_erase_impl; the climb is no longer than there are cells. -/
def eraseImpl (t : Trie) (origin : Int) : Option Trie := do
  let n ← t.nodeAt origin
  eraseLoop t.size.toNat origin (xorByte n.base 0) t

/-- etdb_trie_erase: the removed value, or -1, and the new trie. -/
def erase (t : Trie) (key : List UInt8) : Option (Int × Trie) := do
  let (i, origin) ← t.find 0 key
  if i = noPath ∨ i = noValue then some (-1, t)
  else do
    let t ← t.eraseImpl origin
    some (i, t)

end Trie
end EtdbTrie
