import QdsBuffer.Library.Regex

namespace QdsBuffer.Parsing
open Regex

def month : Regex := alt (seq (text "0") (cls [range '1' '9'])) (seq (text "1") (cls [range '0' '2']))

def day28 : Regex :=
  alts [seq (text "0") (cls [range '1' '9']), seq (text "1") digit,
    seq (text "2") (cls [range '0' '8'])]

def monthWith30 : Regex :=
  alt (seq (text "0") (cls [range '1' '1', range '3' '9'])) (seq (text "1") (cls [range '0' '2']))

def monthWith31 : Regex := alt (seq (text "0") (set "13578")) (seq (text "1") (set "02"))

def dayOfYear365 : Regex :=
  alts [seq (text "00") (cls [range '1' '9']), seqs [text "0", cls [range '1' '9'], digit],
    seq (set "12") (times 2 digit),
    seq (text "3") (alt (seq (cls [range '0' '5']) digit) (seq (text "6") (cls [range '0' '5'])))]

def commonDate : Regex :=
  seqs [cls [range '1' '9'], times 3 digit, group 1 (opt (text "-")),
    alts [seqs [month, backref 1, day28],
      seqs [monthWith30, backref 1, alt (text "29") (text "30")],
      seqs [monthWith31, backref 1, text "31"], dayOfYear365]]

def leapYear : Regex :=
  alt
    (seqs [cls [range '1' '9'], digit,
      alts [seq (text "0") (set "48"), seq (set "2468") (set "048"), seq (set "13579") (set "26")]])
    (seq (alt (seq (set "2468") (set "048")) (seq (set "13579") (set "26"))) (text "00"))

def leapDate : Regex :=
  seq leapYear
    (alt (seqs [group 2 (opt (text "-")), text "02", backref 2, text "29"])
      (seq (opt (text "-")) (text "366")))

def minute : Regex := seq (cls [range '0' '5']) digit

def iso8601Time : Regex :=
  seqs [alt (seq (set "01") digit) (seq (text "2") (cls [range '0' '3'])),
    group 3 (opt (text ":")), minute, opt (seq (backref 3) minute),
    opt (group 4 (seqs [opt (text "."), digit, upTo 5 digit]))]

def iso8601Offset : Regex :=
  alt (text "Z") (seqs [set "+-", set "01", digit, opt (seq (backref 3) minute)])

-- The anchors of the source's pattern add nothing: regex_match asks for a match of the whole string.
def iso8601Regex : Regex :=
  seqs [alt commonDate leapDate, text "T", iso8601Time, iso8601Offset]

def isTimestamp (s : Bytes) : Bool := iso8601Regex.fullMatch s

example : isTimestamp (Bytes.ascii "2019-02-18T13:29:43.123+02:00") = true := by decide

example : isTimestamp (Bytes.ascii "2019-02-30T13:29:43+02:00") = false := by decide

end QdsBuffer.Parsing
