import LosslessSyntax.Diagnostic.Resolved

/-!
# Diagnostics with the line they point at

`Resolved.snippet` shows a diagnostic whose range lies within one line: a title, the place, the line,
and marks under the range. Offsets count bytes of the text in UTF-8, columns count characters.
-/

set_option autoImplicit false

namespace LosslessSyntax

namespace Text

def lines : List Char → List (List Char)
  | [] => [[]]
  | c :: rest =>
    if c = '\n' then [] :: lines rest
    else
      match lines rest with
      | [] => [[c]]
      | line :: others => (c :: line) :: others

/-- The number of bytes that the characters take in UTF-8. -/
def byteSize (cs : List Char) : Nat := cs.foldl (fun n c => n + c.utf8Size) 0

structure Line where
  /-- Counted from 1. -/
  number : Nat
  /-- The offset of the first byte. -/
  start : Nat
  chars : List Char

/-- The line that holds the byte `offset`, where `number` and `start` are those of the first line. A
line holds the offset of its end. -/
def lineAt (offset number start : Nat) : List (List Char) → Line
  | [] => ⟨number, start, []⟩
  | [last] => ⟨number, start, last⟩
  | line :: next :: rest =>
    let stop := start + byteSize line
    if offset ≤ stop then ⟨number, start, line⟩
    else lineAt offset (number + 1) (stop + 1) (next :: rest)

/-- The number of characters that start before the byte `offset`, the first one starting at
`start`. -/
def charsBefore (offset start : Nat) : List Char → Nat
  | [] => 0
  | c :: rest => if start < offset then 1 + charsBefore offset (start + c.utf8Size) rest else 0

end Text

def Severity.mark : Severity → Char
  | error => '^'
  | _ => '-'

def Severity.label : Severity → String
  | info => "info: here"
  | _ => "here"

/-- The diagnostic as it is shown with its line. A diagnostic on an empty line has no line to show and
is placed at the start of the text. -/
def Resolved.snippet (r : Resolved) (path text message : String) : String :=
  let severity := r.diagnostic.severity
  let title := severity.word ++ "[" ++ r.codeText ++ "]: " ++ message
  let line := Text.lineAt r.range.start 1 0 (Text.lines text.toList)
  if line.chars.isEmpty then "\n".intercalate [title, "--> " ++ path ++ ":1:1", " |", " |"]
  else
    let before := Text.charsBefore r.range.start line.start line.chars
    let marks := max 1 (Text.charsBefore r.range.stop line.start line.chars - before)
    let number := toString line.number
    let margin := String.ofList (List.replicate number.length ' ')
    "\n".intercalate
      [title,
        margin ++ "--> " ++ path ++ ":" ++ number ++ ":" ++ toString (before + 1),
        margin ++ " |",
        number ++ " | " ++ String.ofList line.chars,
        margin ++ " | " ++ String.ofList (List.replicate before ' ' ++ List.replicate marks severity.mark) ++ " "
          ++ severity.label,
        margin ++ " |"]

end LosslessSyntax
