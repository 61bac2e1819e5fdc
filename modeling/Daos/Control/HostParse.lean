import Daos.Control.HostList

/-!
# Parsing host lists (`control/lib/hostlist/hostlist.go`, `numericlist.go`)

`Create` reads a list of hosts such as `node[1-4,7],rack-2`: tokens separated by tabs, commas
and blanks outside brackets; a bracketed token gives one range per comma-separated part of its
brackets, between the prefix before them and the suffix after them; a token without brackets
is one host, which `hostName.Parse` splits into a prefix, a number and a suffix with regular
expressions. `CreateNumericList` reads the bracketed numbers alone.

**What is modelled.** Every string is ASCII, so `unicode.IsSpace` and `unicode.IsLetter` are their
ASCII parts, and a regular expression's `.` matches every character but the newline. The three
regular expressions of `hostName.Parse` are written as the longest matches their groups take;
each is anchored at the start. `%q` quotes a string by enclosing it in double quotes, as it does
for one without quotes, backslashes or control characters. The tokenizing loop of
`parseBracketedHostList` runs on fuel, one step for each character of the input suffices.
-/

namespace Daos.Control

/-- `MaxRange`. -/
def maxRange : ℕ := 16384

/-- `outerRangeSeparators`. -/
def outerRangeSeparators : List Char := ['\t', ',', ' ']

/-- `innerRangeSeparator`. -/
def innerRangeSeparator : Char := ','

/-- `rangeOperator`. -/
def rangeOperator : Char := '-'

/-- `%q`. -/
def goQuote (s : List Char) : List Char :=
  '"' :: s ++ ['"']

/-- `unicode.IsSpace` on ASCII. -/
def isGoSpace (c : Char) : Bool :=
  c = '\t' || c = '\n' || c = '\x0b' || c = '\x0c' || c = '\r' || c = ' '

/-- `unicode.IsLetter` on ASCII. -/
def isGoLetter (c : Char) : Bool :=
  c.isAlpha

/-- `strings.TrimSpace`. -/
def trimSpace (s : List Char) : List Char :=
  ((s.dropWhile isGoSpace).reverse.dropWhile isGoSpace).reverse

/-- `strconv.ParseUint(s, 10, 0)`: decimal digits only, the value below 2^64. -/
def parseUint (s : List Char) : Option ℕ :=
  if s ≠ [] ∧ s.all Char.isDigit = true then
    let v := Nat.ofDigitChars 10 s 0
    if v < 2 ^ 64 then some v else none
  else none

/-! ### Host names -/

/-- `(.*)`: the characters up to the first newline. -/
def matchRest (s : List Char) : List Char :=
  s.takeWhile (· ≠ '\n')

/-- `^([a-zA-Z]+)(\d+)?(.*)?`: the leading letters, the digits after them, and the rest. -/
def matchLetters (s : List Char) : Option (List Char × List Char × List Char) :=
  let g1 := s.takeWhile Char.isAlpha
  if g1 = [] then none
  else
    let rest := s.drop g1.length
    let g2 := rest.takeWhile Char.isDigit
    some (g1, g2, matchRest (rest.drop g2.length))

/-- The position of the last hyphen after the first character. -/
def lastHyphen (run : List Char) : Option ℕ :=
  ((List.range run.length).filter fun j => 1 ≤ j ∧ run[j]? = some '-').getLast?

/-- `^([a-zA-Z0-9\-]+\-)(\d+)?(.*)?`: the leading name characters up to their last hyphen after
the first, the digits after it, and the rest. -/
def matchHyphen (s : List Char) : Option (List Char × List Char × List Char) :=
  let run := s.takeWhile fun c => c.isAlphanum || c = '-'
  match lastHyphen run with
  | none => none
  | some j =>
    let rest := s.drop (j + 1)
    let g2 := rest.takeWhile Char.isDigit
    some (run.take (j + 1), g2, matchRest (rest.drop g2.length))

/-- `\d{1,3}\.`: one to three digits and a dot. -/
def matchOctetDot (s : List Char) : Option (List Char × List Char) :=
  let d := s.takeWhile Char.isDigit
  if 1 ≤ d.length ∧ d.length ≤ 3 ∧ (s.drop d.length).head? = some '.' then
    some (d ++ ['.'], s.drop (d.length + 1))
  else none

/-- `^(\d{1,3}\.\d{1,3}\.\d{1,3}\.)(\d{1,3})(.*)`: an IP address, its last octet the number. -/
def matchAddress (s : List Char) : Option (List Char × List Char × List Char) := do
  let (o1, s) ← matchOctetDot s
  let (o2, s) ← matchOctetDot s
  let (o3, s) ← matchOctetDot s
  let g2 := (s.takeWhile Char.isDigit).take 3
  if g2 = [] then none else some (o1 ++ o2 ++ o3, g2, matchRest (s.drop g2.length))

/-- `hostName.Parse`. -/
def parseHostName (input : List Char) : Except (List Char) HostName := do
  let first := if '-' ∈ input then matchHyphen input else matchLetters input
  let (g1, g2, g3) ← match first with
    | some m => pure m
    | none =>
      match matchAddress input with
      | none => throw ("invalid hostname ".toList ++ goQuote input)
      | some (g1, g2, g3) =>
        if g3 ≠ [] ∧ (parseUint (g3.drop 1)).isNone then
          throw ("invalid hostname ".toList ++ goQuote input)
        else pure (g1, g2, g3)
  if g1 = [] then throw ("invalid hostname (missing prefix) ".toList ++ goQuote input)
  let hn : HostName := { prefixStr := g1 }
  let hn ← if g2 ≠ [] then
      match parseUint g2 with
      | some number => pure { hn with number := number, hasNumber := true, width := g2.length }
      | none =>
        throw ("strconv.ParseUint: parsing ".toList ++ goQuote g2 ++ ": value out of range".toList)
    else pure hn
  pure { hn with suffixStr := g3 }

namespace HostList

/-- `PushHost`: a host with a number is a range of one, one without is a host named by the
whole string. -/
def pushHost (hl : HostList) (stringHost : List Char) : Except (List Char) HostList := do
  let hn ← parseHostName stringHost
  if hn.hasNumber then
    pure (hl.pushRange { prefixStr := hn.prefixStr, suffixStr := hn.suffixStr, lo := hn.number,
                         hi := hn.number, width := hn.width, isRange := true })
  else pure (hl.pushRange { prefixStr := stringHost })

end HostList

/-! ### Ranges -/

/-- `parseRange`. -/
def parseRange (input : List Char) : Except (List Char) HostRange := do
  let lohi := input.splitOn rangeOperator
  if lohi.length = 0 ∨ lohi.length > 2 then throw ("invalid range: ".toList ++ goQuote input)
  let loStr := lohi.headD []
  let lo ← match parseUint (trimSpace loStr) with
    | some lo => pure lo
    | none => throw ("invalid range ".toList ++ goQuote input ++ " (".toList ++ goQuote loStr ++
        " is not uint)".toList)
  let hi ← if lohi.length = 2 then
      let hiStr := lohi.getD 1 []
      match parseUint (trimSpace hiStr) with
      | some hi => pure hi
      | none => throw ("invalid range ".toList ++ goQuote input ++ " (".toList ++ goQuote hiStr ++
          " is not uint)".toList)
    else pure lo
  if hi < lo then
    throw ("invalid range ".toList ++ goQuote input ++ " (".toList ++ decimal hi ++ " < ".toList ++
      decimal lo ++ [')'])
  if hi - lo > maxRange then
    throw ("invalid range ".toList ++ goQuote input ++ " (> ".toList ++ decimal maxRange ++
      " hosts)".toList)
  pure { lo := lo, hi := hi, width := loStr.length, isRange := true }

/-- `parseRanges`: the comma-separated ranges inside a pair of brackets. -/
def parseRanges (input : List Char) : Except (List Char) (List HostRange) :=
  (input.splitOn innerRangeSeparator).mapM parseRange

/-! ### Tokens -/

/-- The scan of `nextToken` for a separator outside brackets, at bracket depth `level`: the
token before it and what follows it. -/
def splitToken (sep : List Char) : ℤ → List Char → List Char × List Char
  | _, [] => ([], [])
  | level, c :: cs =>
    if c = '[' then
      let (token, rest) := splitToken sep (level + 1) cs
      (c :: token, rest)
    else if c = ']' then
      let (token, rest) := splitToken sep (level - 1) cs
      (c :: token, rest)
    else if level ≤ 0 ∧ c ∈ sep then ([], cs)
    else
      let (token, rest) := splitToken sep level cs
      (c :: token, rest)

/-- `nextToken`: what follows the next token, and the token. Separators before it are skipped,
unless the input holds nothing else. -/
def nextToken (input sep : List Char) : List Char × List Char :=
  let skipped := input.dropWhile (· ∈ sep)
  let output := if skipped = [] then input else skipped
  let (token, rest) := splitToken sep 0 output
  (rest, token)

namespace HostList

/-- The body of the loop of `parseBracketedHostList` for one token. -/
def parseToken (nameOptional : Bool) (hl : HostList) (tok : List Char) :
    Except (List Char) HostList :=
  match tok.idxOf? '[' with
  | none => if !nameOptional then hl.pushHost tok else pure hl
  | some leftIndex =>
    match tok.idxOf? ']' with
    | none => throw ("invalid range ".toList ++ goQuote tok)
    | some rightIndex =>
      if rightIndex ≤ leftIndex then throw ("invalid range ".toList ++ goQuote tok)
      else do
        let ranges ← parseRanges ((tok.take rightIndex).drop (leftIndex + 1))
        let prefixStr := tok.take leftIndex
        if prefixStr = [] ∧ !nameOptional then throw ("invalid range: ".toList ++ goQuote tok)
        let suffixStr := tok.drop (rightIndex + 1)
        pure (ranges.foldl (fun hl hr =>
          hl.pushRange { hr with prefixStr := prefixStr, suffixStr := suffixStr }) hl)

/-- The loop of `parseBracketedHostList`, from the token `tok` that came before `scanStr`. -/
def parseLoop (nameOptional : Bool) :
    ℕ → List Char → List Char → HostList → Except (List Char) HostList
  | 0, _, _, _ => throw "fuel".toList
  | fuel + 1, scanStr, tok, hl => do
    let hl ← parseToken nameOptional hl tok
    if scanStr = [] then pure hl
    else
      let (scanStr, tok) := nextToken scanStr outerRangeSeparators
      parseLoop nameOptional fuel scanStr tok hl

/-- `parseBracketedHostList` with the outer separators and the range operator. -/
def parseBracketedHostList (input : List Char) (nameOptional : Bool) :
    Except (List Char) HostList :=
  if input = [] then pure {}
  else
    let (scanStr, tok) := nextToken input outerRangeSeparators
    parseLoop nameOptional (input.length + 1) scanStr tok {}

/-- `Create`. -/
def create (stringHosts : List Char) : Except (List Char) HostList :=
  parseBracketedHostList stringHosts false

end HostList

end Daos.Control
