import QdsBuffer.Library.Bytes

inductive Regex where
  | empty
  | cls (ranges : List (UInt8 × UInt8))
  | seq (a b : Regex)
  | alt (a b : Regex)
  | group (index : Nat) (a : Regex)
  | backref (index : Nat)

namespace Regex
open Bytes

abbrev Captures := List (Nat × Bytes)

-- Every way to match a prefix, in the order of a backtracking matcher, with what is left to match.
-- A back-reference to a group that took no part in the match stands for the empty string.
def paths : Regex → Captures → Bytes → List (Captures × Bytes)
  | empty, c, s => [(c, s)]
  | cls _, _, [] => []
  | cls ranges, c, b :: s => if ranges.any (fun r => r.1 ≤ b && b ≤ r.2) then [(c, s)] else []
  | seq a b, c, s => (a.paths c s).flatMap (fun p => b.paths p.1 p.2)
  | alt a b, c, s => a.paths c s ++ b.paths c s
  | group index a, c, s =>
    (a.paths c s).map (fun p => ((index, s.take (s.length - p.2.length)) :: p.1, p.2))
  | backref index, c, s =>
    let w := (c.lookup index).getD []
    if w.isPrefixOf s then [(c, s.drop w.length)] else []

def fullMatch (r : Regex) (s : Bytes) : Bool := (r.paths [] s).any (fun p => p.2.isEmpty)

def seqs : List Regex → Regex
  | [] => empty
  | [r] => r
  | r :: rs => seq r (seqs rs)

def alts : List Regex → Regex
  | [] => cls []
  | [r] => r
  | r :: rs => alt r (alts rs)

def range (a b : Char) : UInt8 × UInt8 := (a.toUInt8, b.toUInt8)

def set (s : String) : Regex := cls ((ascii s).map (fun b => (b, b)))

def text (s : String) : Regex := seqs ((ascii s).map (fun b => cls [(b, b)]))

def digit : Regex := cls [range '0' '9']

def opt (r : Regex) : Regex := alt r empty

def times : Nat → Regex → Regex
  | 0, _ => empty
  | n + 1, r => seq r (times n r)

def upTo : Nat → Regex → Regex
  | 0, _ => empty
  | n + 1, r => opt (seq r (upTo n r))

end Regex
