import Reckon.Proofs.Token.Ahead

/-! Scanning one character at a time, loop by loop. Each loop looks at the character at hand, or only asks
whether there is one, and moves the cursor by one. It might run into the end of the text or never be done;
from every place it does neither, needs at most one round more than there are characters left, and takes
what the lists of characters ahead say. -/
namespace Reckon
open Lexer (isSpace)

theorem Piece.numberTail_dot {text rest : List Char} {d : Char}
    (h : text.dropWhile isDigit = '.' :: d :: rest) (hd : isDigit d = true) :
    (numberTail text).1 = text.takeWhile isDigit ++ '.' :: (d :: rest).takeWhile isDigit := by
  simp only [numberTail, h, hd, if_true]

theorem Piece.numberTail_plain {text : List Char}
    (h : ¬∃ d rest, text.dropWhile isDigit = '.' :: d :: rest ∧ isDigit d = true) :
    (numberTail text).1 = text.takeWhile isDigit := by
  unfold numberTail
  split
  · rename_i d rest hdrop
    have hd : ¬isDigit d = true := fun hd => h ⟨d, rest, hdrop, hd⟩
    rw [if_neg hd]
  · rfl

namespace Cursor
variable {α β : Type}

/-- Scanning moves a cursor as it goes. A refusal leaves the cursor where it stands. A loop that is not done
after the rounds it may take gives nothing at all. -/
abbrev Scan := ExceptT Refusal (StateT Cursor Option)

namespace Scan

def unfinished : Scan α :=
  ExceptT.mk fun _ => none

def atEnd : Scan Bool := do
  return (← get).atEnd

def peek (offset : Int) : Scan (Option Char) := do
  return (← get).peek offset

-- A negative index counts back from the end of the text, as far as its first character.
def charAt? (source : List Char) (index : Int) : Option Char :=
  if 0 ≤ index then source[index.toNat]?
  else if 0 ≤ source.length + index then source[(source.length + index).toNat]?
  else none

def advance : Scan Char := do
  let c ← get
  if c.atEnd then throw (.pastEnd c.position c.pos.line)
  else
    match charAt? c.source c.position with
    | none => throw (.beforeStart c.position)
    | some x =>
      set { c with position := c.position + 1, pos := c.pos.after x }
      return x

def gather (isMember : Char → Bool) : (rounds : Nat) → (taken : String) → Scan String
  | 0, _ => unfinished
  | rounds + 1, taken => do
    if (← peek 0).any isMember then gather isMember rounds (taken.push (← advance))
    else return taken

def skipSpaces (rounds : Nat) : Scan Unit := do
  let _ ← gather isSpace rounds ""

def skipLine : (rounds : Nat) → Scan Unit
  | 0 => unfinished
  | rounds + 1 => do
    if ← atEnd then return
    else if (← advance) = '\n' then return
    else skipLine rounds

def word (rounds : Nat) (first : String) (p : Pos) : Scan Token := do
  let lexeme ← gather (fun x => isLetter x || isDigit x) rounds first
  return ⟨Kind.ofWord lexeme, lexeme, p, none⟩

def number (rounds : Nat) (first : String) (p : Pos) : Scan Token := do
  let whole ← gather isDigit rounds first
  -- A dot is part of the number only if a digit follows it.
  if (← peek 0) = some '.' ∧ (← peek 1).any isDigit then
    let lexeme ← gather isDigit rounds (whole.push (← advance))
    return ⟨.number, lexeme, p, none⟩
  else return ⟨.number, whole, p, none⟩

-- Nothing is seen at a negative position, where a string still goes on: only the end stops it.
def untilQuote : (rounds : Nat) → (taken : String) → Scan String
  | 0, _ => unfinished
  | rounds + 1, taken => do
    if !(← atEnd) && (← peek 0) != some '"' then untilQuote rounds (taken.push (← advance))
    else return taken

def string (rounds : Nat) (p : Pos) : Scan Token := do
  let taken ← untilQuote rounds "\""
  if ← atEnd then return ⟨.unknown, taken, p, some "Unterminated string"⟩
  else return ⟨.string, taken.push (← advance), p, none⟩

/-- Skips spaces and comments, and tells whether a token follows. -/
def skipGap : (rounds : Nat) → Scan Bool
  | 0 => unfinished
  | rounds + 1 => do
    if ← atEnd then return false
    else
      skipSpaces (rounds + 1)
      if ← atEnd then return false
      else if (← peek 0) = some '/' ∧ (← peek 1) = some '/' then
        skipLine (rounds + 1)
        skipGap rounds
      else return true

def tokenFrom (rounds : Nat) (x : Char) (p : Pos) : Scan Token :=
  match Kind.punctuation.lookup x, Kind.joinable.lookup x with
  | some kind, _ => return ⟨kind, x.toString, p, none⟩
  | none, some (alone, joined) => do
    if (← peek 0) = some '=' then
      let _ ← advance
      return ⟨joined, x.toString ++ "=", p, none⟩
    else return ⟨alone, x.toString, p, none⟩
  | none, none =>
    if x = '"' then string rounds p
    else if isLetter x then word rounds x.toString p
    else if isDigit x then number rounds x.toString p
    else return ⟨.unknown, "", p, some ("Unexpected character " ++ Text.quoted x.toString)⟩

def nextToken (rounds : Nat) : Scan Token := do
  if ← skipGap rounds then
    let p := (← get).pos
    tokenFrom rounds (← advance) p
  else return Token.eofAt (← get).pos

def drain : (rounds : Nat) → (taken : List Token) → Scan (List Token)
  | 0, _ => unfinished
  | rounds + 1, taken => do
    let t ← nextToken (rounds + 1)
    if t.kind = .eof then return taken ++ [t] else drain rounds (taken ++ [t])

def tokens (rounds : Nat) : Scan (List Token) :=
  drain rounds []

def runFrom (c : Cursor) (s : Scan α) : Option (Except Refusal α × Cursor) :=
  s.run.run c

variable {c d : Cursor} {s : Scan α} {next : α → Scan β} {a : α} {r : Refusal} {x : Char} {n : Nat}
  {isMember : Char → Bool} {taken : String} {p : Pos} {text rest hidden visible : List Char}

section Runs

theorem runFrom_ok (h : s.runFrom c = some (.ok a, d)) :
    (s >>= next).runFrom c = (next a).runFrom d := by
  simp only [runFrom, ExceptT.run_bind, StateT.run_bind] at h ⊢
  rw [h]
  rfl

theorem runFrom_error (h : s.runFrom c = some (.error r, d)) :
    (s >>= next).runFrom c = some (.error r, d) := by
  simp only [runFrom, ExceptT.run_bind, StateT.run_bind] at h ⊢
  rw [h]
  rfl

@[simp] theorem runFrom_pure : (pure a : Scan α).runFrom c = some (.ok a, c) := rfl

@[simp] theorem runFrom_atEnd {next : Bool → Scan β} :
    (atEnd >>= next).runFrom c = (next c.atEnd).runFrom c := rfl

@[simp] theorem runFrom_peek {next : Option Char → Scan β} {offset : Int} :
    (peek offset >>= next).runFrom c = (next (c.peek offset)).runFrom c := rfl

@[simp] theorem runFrom_get {next : Cursor → Scan β} :
    (get >>= next).runFrom c = (next c).runFrom c := rfl

end Runs

section Characters

theorem charAt?_before (h : c.ahead? = none) : charAt? c.source c.position = none := by
  have hbefore := before_of_ahead? h
  rw [charAt?, if_neg (by omega), if_neg (by omega)]

theorem charAt?_ahead (h : c.ahead? = some (hidden, visible)) :
    charAt? c.source c.position = (hidden ++ visible).head? := by
  obtain ⟨hlength, hhidden, rfl⟩ | ⟨hpos, rfl, rfl⟩ := ahead?_cases h
  · cases hidden with
    | nil =>
      have hzero : c.position = 0 := by
        rw [List.length_nil] at hlength
        omega
      simp [charAt?, hzero, List.head?_eq_getElem?]
    | cons x hidden =>
      have hsource := congrArg List.length hhidden
      rw [List.length_cons, List.length_drop] at hsource
      rw [List.length_cons] at hlength
      have hhead := congrArg List.head? hhidden
      rw [List.head?_drop] at hhead
      rw [charAt?, if_neg (by omega), if_pos (by omega), ← hhead]
      rfl
  · rw [charAt?, if_pos hpos, List.nil_append, List.head?_drop]

theorem runFrom_advance (c : Cursor) : advance.runFrom c = some c.next := by
  rw [advance, runFrom_get]
  cases hahead : c.ahead? with
  | none =>
    rw [atEnd_before hahead, charAt?_before hahead, Cursor.next, hahead]
    rfl
  | some ahead =>
    obtain ⟨hidden, visible⟩ := ahead
    rw [(ahead_append hahead).atEnd, charAt?_ahead hahead]
    cases htext : hidden ++ visible with
    | nil =>
      simp only [Cursor.next, hahead, htext]
      rfl
    | cons x rest =>
      simp only [Cursor.next, hahead, htext]
      rfl

theorem runFrom_advance_ahead {next : Char → Scan β} (h : c.Ahead (x :: rest)) :
    (advance >>= next).runFrom c = (next x).runFrom (c.pass [x]) :=
  runFrom_ok (by rw [runFrom_advance, h.next])

theorem runFrom_advance_before {next : Char → Scan β} (h : c.ahead? = none) :
    (advance >>= next).runFrom c = some (.error (.beforeStart c.position), c) :=
  runFrom_error (by rw [runFrom_advance, Cursor.next, h])

end Characters

section Loops

theorem push_append_ofList (taken : String) (x : Char) (text : List Char) :
    taken.push x ++ String.ofList text = taken ++ String.ofList (x :: text) := by
  apply String.toList_inj.mp
  simp

theorem ofList_push (text : List Char) (x : Char) :
    (String.ofList text).push x = String.ofList (text ++ [x]) := by
  apply String.toList_inj.mp
  simp

theorem toString_append_ofList (x : Char) (text : List Char) :
    x.toString ++ String.ofList text = String.ofList (x :: text) := by
  apply String.toList_inj.mp
  simp

theorem opening_append (text : List Char) : "\"" ++ String.ofList text = String.ofList ('"' :: text) :=
  toString_append_ofList '"' text

theorem runFrom_gather (h : c.visible.length < n) :
    (gather isMember n taken).runFrom c =
      some (.ok (taken ++ String.ofList (c.visible.takeWhile isMember)),
        c.pass (c.visible.takeWhile isMember)) := by
  induction n generalizing c taken with
  | zero => exact absurd h (Nat.not_lt_zero _)
  | succ n ih =>
    rw [gather, runFrom_peek, peek_zero]
    cases hvisible : c.visible with
    | nil => simp [pass_nil]
    | cons x rest =>
      rw [hvisible, List.length_cons] at h
      have hrest : (c.pass [x]).visible = rest := visible_pass hvisible
      rw [List.head?_cons, Option.any_some]
      by_cases hx : isMember x = true
      · rw [if_pos hx, runFrom_advance_ahead (ahead_shown (ahead?_of_visible hvisible)),
          ih (by rw [hrest]; omega), hrest, List.takeWhile_cons_of_pos hx, push_append_ofList, ← pass_cons]
      · rw [if_neg hx, List.takeWhile_cons_of_neg hx, pass_nil]
        simp

theorem runFrom_skipSpaces (h : c.remaining < n) :
    (skipSpaces n).runFrom c = some (.ok (), c.skipSpaces) := by
  have hvisible := length_visible_le c
  rw [skipSpaces, runFrom_ok (runFrom_gather (by omega))]
  rfl

theorem runFrom_word (first : String) (h : c.remaining < n) :
    (word n first p).runFrom c = some (.ok (c.word first p).1, (c.word first p).2) := by
  have hvisible := length_visible_le c
  rw [word, runFrom_ok (runFrom_gather (by omega))]
  rfl

theorem runFrom_number (first : String) (h : c.remaining < n) :
    (number n first p).runFrom c = some (.ok (c.number first p).1, (c.number first p).2) := by
  have hvisible := length_visible_le c
  have hdigits : c.visible = c.visible.takeWhile isDigit ++ c.visible.dropWhile isDigit :=
    List.takeWhile_append_dropWhile.symm
  have hlength := congrArg List.length hdigits
  rw [List.length_append] at hlength
  have hrest := visible_pass hdigits
  rw [number, runFrom_ok (runFrom_gather (by omega)), runFrom_peek, runFrom_peek, peek_zero, hrest]
  by_cases hdot : ∃ d rest, c.visible.dropWhile isDigit = '.' :: d :: rest ∧ isDigit d = true
  · obtain ⟨d, rest, hdrop, hd⟩ := hdot
    rw [hdrop] at hrest hlength
    have hfraction : ((c.pass (c.visible.takeWhile isDigit)).pass ['.']).visible = d :: rest :=
      visible_pass hrest
    rw [hdrop, peek_one hrest, if_pos ⟨rfl, hd⟩,
      runFrom_advance_ahead (ahead_shown (ahead?_of_visible hrest)),
      runFrom_ok (runFrom_gather (by rw [hfraction]; simp only [List.length_cons] at hlength ⊢; omega)),
      hfraction, push_append_ofList, ← pass_cons, ← pass_append, String.append_assoc,
      ← String.ofList_append]
    simp only [Cursor.number, Piece.numberTail_dot hdrop hd]
    rfl
  · have hplain : ¬((c.visible.dropWhile isDigit).head? = some '.' ∧
        (((c.pass (c.visible.takeWhile isDigit)).peek 1).any isDigit = true)) := by
      rintro ⟨hhead, hdigit⟩
      obtain ⟨rest, hdrop⟩ := List.head?_eq_some_iff.mp hhead
      rw [hdrop] at hrest
      rw [peek_one hrest] at hdigit
      obtain ⟨d, hd, hmem⟩ := (Option.any_eq_true _ _).mp hdigit
      obtain ⟨more, rfl⟩ := List.head?_eq_some_iff.mp hd
      exact hdot ⟨d, more, hdrop, hmem⟩
    rw [if_neg hplain]
    simp only [Cursor.number, Piece.numberTail_plain hdot]
    rfl

theorem runFrom_skipLine_ahead (h : c.Ahead text) (hn : text.length < n) :
    (skipLine n).runFrom c = some (.ok (), c.pass (firstLine text)) := by
  induction n generalizing c text with
  | zero => exact absurd hn (Nat.not_lt_zero _)
  | succ n ih =>
    rw [skipLine, runFrom_atEnd, h.atEnd]
    cases text with
    | nil => simp [firstLine, pass_nil]
    | cons x rest =>
      rw [List.length_cons] at hn
      rw [List.isEmpty_cons, if_neg Bool.false_ne_true, runFrom_advance_ahead h]
      by_cases hx : x = '\n'
      · simp [hx, firstLine]
      · rw [if_neg hx, ih h.pass (by omega), ← pass_cons]
        simp [hx, firstLine]

theorem runFrom_skipLine (h : c.remaining < n) : (skipLine n).runFrom c = some c.skipLine := by
  cases hahead : c.ahead? with
  | none =>
    obtain ⟨n, rfl⟩ := Nat.exists_eq_add_one.mpr (rounds_pos h)
    rw [skipLine, runFrom_atEnd, atEnd_before hahead, if_neg Bool.false_ne_true,
      runFrom_advance_before hahead, Cursor.skipLine, hahead]
  | some ahead =>
    obtain ⟨hidden, visible⟩ := ahead
    have hlength := length_ahead hahead
    rw [runFrom_skipLine_ahead (ahead_append hahead) (by omega), Cursor.skipLine, hahead]

theorem runFrom_untilQuote (h : c.ahead? = some (hidden, visible))
    (hn : (hidden ++ visible).length < n) :
    (untilQuote n taken).runFrom c =
      some (.ok (taken ++ String.ofList (hidden ++ visible.takeWhile (· != '"'))),
        c.pass (hidden ++ visible.takeWhile (· != '"'))) := by
  induction n generalizing c hidden visible taken with
  | zero => exact absurd hn (Nat.not_lt_zero _)
  | succ n ih =>
    rw [untilQuote, runFrom_atEnd, runFrom_peek, (ahead_append h).atEnd, peek_zero]
    cases hidden with
    | cons x hidden =>
      simp only [List.cons_append, List.length_cons] at hn
      rw [visible_hidden h, if_pos (by rfl), runFrom_advance_ahead (ahead_append h),
        ih (ahead?_hidden h) (by omega), push_append_ofList, ← pass_cons, List.cons_append]
    | nil =>
      rw [visible_shown h]
      cases visible with
      | nil => simp [pass_nil]
      | cons x rest =>
        simp only [List.nil_append, List.length_cons] at hn
        by_cases hx : x = '"'
        · simp [hx, pass_nil]
        · rw [if_pos (by simpa using hx), runFrom_advance_ahead (ahead_append h),
            ih (ahead?_shown h) (by simpa using hn), push_append_ofList, ← pass_cons]
          simp [hx]

theorem runFrom_string (h : c.remaining < n) : (string n p).runFrom c = some (c.string p) := by
  cases hahead : c.ahead? with
  | none =>
    obtain ⟨n, rfl⟩ := Nat.exists_eq_add_one.mpr (rounds_pos h)
    have hrefused : (untilQuote (n + 1) "\"").runFrom c = some (.error (.beforeStart c.position), c) := by
      rw [untilQuote, runFrom_atEnd, runFrom_peek, atEnd_before hahead, peek_zero, visible_before hahead,
        if_pos (by rfl), runFrom_advance_before hahead]
    rw [string, runFrom_error hrefused, Cursor.string, hahead]
  | some ahead =>
    obtain ⟨hidden, visible⟩ := ahead
    have hlength := length_ahead hahead
    have hquote : (c.pass (hidden ++ visible.takeWhile (· != '"'))).ahead? =
        some ([], visible.dropWhile (· != '"')) := by
      have hshown : (c.pass hidden).ahead? = some ([], visible) :=
        ahead?_pass_hidden (by rwa [List.append_nil])
      rw [pass_append]
      exact ahead?_pass_shown (by rwa [List.takeWhile_append_dropWhile])
    rw [string, runFrom_ok (runFrom_untilQuote hahead (by omega)), runFrom_atEnd, (ahead_shown hquote).atEnd]
    simp only [Cursor.string, hahead, Piece.closeString]
    cases hdrop : visible.dropWhile (· != '"') with
    | nil =>
      have hall := List.takeWhile_append_dropWhile (p := (· != '"')) (l := visible)
      rw [hdrop, List.append_nil] at hall
      rw [hall, List.isEmpty_nil, if_pos rfl, runFrom_pure, opening_append]
      rfl
    | cons quote after =>
      rw [hdrop] at hquote
      rw [List.isEmpty_cons, if_neg Bool.false_ne_true, runFrom_advance_ahead (ahead_shown hquote),
        runFrom_pure, opening_append, ofList_push, ← pass_append, List.cons_append, List.append_assoc]
      rfl

end Loops

end Scan
end Cursor
end Reckon
