import Reckon.Token.Piece

/-! The tokens of a text: gaps are skipped, pieces are read, and one token of kind `eof` ends the
list. Faults of the text are tokens too, so lexing always succeeds. -/
namespace Reckon.Lexer

def isSpace (c : Char) : Bool :=
  c == ' ' || c == '\t' || c == '\r' || c == '\n'

/-- The longest gap at the start of a text and what follows it. A comment runs through its newline;
`inComment` says that the text starts within one. -/
def splitGap : (inComment : Bool) → List Char → List Char × List Char
  | _, [] => ([], [])
  | true, c :: rest => (splitGap (c != '\n') rest).map (c :: ·) id
  | false, '/' :: '/' :: rest => (splitGap true rest).map ('/' :: '/' :: ·) id
  | false, c :: rest =>
    if isSpace c then (splitGap false rest).map (c :: ·) id else ([], c :: rest)

theorem splitGap_append (inComment : Bool) (text : List Char) :
    (splitGap inComment text).1 ++ (splitGap inComment text).2 = text := by
  fun_induction splitGap inComment text <;> simp_all

theorem splitGap_length (inComment : Bool) (text : List Char) :
    (splitGap inComment text).2.length ≤ text.length := by
  have h := congrArg List.length (splitGap_append inComment text)
  simp only [List.length_append] at h
  omega

/-- Skipping a gap and reading a piece leaves less text. -/
theorem read_shorter {c : Char} {rest text : List Char} (h : (splitGap false text).2 = c :: rest) :
    (Piece.read c rest).2.length < text.length := by
  have gap := splitGap_length false text
  have piece := Piece.read_length c rest
  rw [h, List.length_cons] at gap
  omega

def tokens (p : Pos) (text : List Char) : List Token :=
  let start := p.past (splitGap false text).1
  match h : (splitGap false text).2 with
  | [] => [Token.eofAt start]
  | c :: rest =>
    let found := Piece.read c rest
    have : found.2.length < text.length := read_shorter h
    found.1.token start :: tokens (start.past found.1.text) found.2
termination_by text.length

def tokenize (source : String) : List Token :=
  tokens Pos.start source.toList

end Reckon.Lexer
