import Mathlib.Data.List.TakeWhile
import Reckon.Token.Lexer

/-! The forms of tokens. Reading a piece of a text takes the longest form that the text starts with;
a text that starts with no form gives an open string or a stray character. -/
namespace Reckon.Lexer

def marks : List (List Char × Kind) :=
  [(['('], .leftParen), ([')'], .rightParen), (['\x7b'], .leftBrace), (['\x7d'], .rightBrace),
   ([','], .comma), (['.'], .dot), (['-'], .minus), (['+'], .plus), ([';'], .semicolon),
   (['*'], .star), (['/'], .slash),
   (['='], .equal), (['=', '='], .equalEqual), (['!'], .bang), (['!', '='], .bangEqual),
   (['<'], .less), (['<', '='], .lessEqual), (['>'], .greater), (['>', '='], .greaterEqual)]

def IsWord : List Char → Prop
  | [] => False
  | c :: tail => isLetter c ∧ ∀ x ∈ tail, isLetter x || isDigit x

def IsDigits : List Char → Prop
  | [] => False
  | c :: tail => isDigit c ∧ ∀ x ∈ tail, isDigit x

inductive Form : List Char → Kind → Prop
  | mark {text kind} : (text, kind) ∈ marks → Form text kind
  | string {body} : '"' ∉ body → Form ('"' :: (body ++ ['"'])) .string
  | reserved {text kind} : IsWord text → (String.ofList text, kind) ∈ Kind.reserved → Form text kind
  | identifier {text} : IsWord text → (∀ kind, (String.ofList text, kind) ∉ Kind.reserved) →
      Form text .identifier
  | whole {digits} : IsDigits digits → Form digits .number
  | fraction {digits more} : IsDigits digits → IsDigits more → Form (digits ++ '.' :: more) .number

def Formless (text : List Char) : Prop := ∀ p kind, Form p kind → ¬ p <+: text

variable {c : Char} {p rest tail : List Char} {kind : Kind}

theorem mark_of_punctuation : ∀ y ∈ Kind.punctuation, ([y.1], y.2) ∈ marks := by decide

theorem mark_of_joinable : ∀ y ∈ Kind.joinable,
    ([y.1], y.2.1) ∈ marks ∧ ([y.1, '='], y.2.2) ∈ marks := by decide

theorem mark_cases : ∀ x ∈ marks, (∃ y ∈ Kind.punctuation, x.1 = [y.1]) ∨
    (∃ y ∈ Kind.joinable, x.1 = [y.1] ∨ x.1 = [y.1, '=']) := by decide

theorem punctuation_apart : ∀ y ∈ Kind.punctuation,
    isLetter y.1 = false ∧ isDigit y.1 = false ∧ y.1 ≠ '"' ∧ ∀ z ∈ Kind.joinable, z.1 ≠ y.1 := by
  decide

theorem joinable_apart : ∀ y ∈ Kind.joinable,
    isLetter y.1 = false ∧ isDigit y.1 = false ∧ y.1 ≠ '"' := by decide

theorem isDigit_of_isLetter (h : isLetter c = true) : isDigit c = false := by
  simp only [isLetter, Bool.or_eq_true, Bool.and_eq_true, decide_eq_true_eq, Char.le_def,
    UInt32.le_iff_toNat_le] at h
  simp only [isDigit, Bool.and_eq_false_iff, decide_eq_false_iff_not, Char.le_def,
    UInt32.le_iff_toNat_le]
  right
  change ¬ c.val.toNat ≤ 57
  cases h with
  | inl h =>
    have hlow : 97 ≤ c.val.toNat := h.1
    omega
  | inr h =>
    have hlow : 65 ≤ c.val.toNat := h.1
    omega

/-- What a form that starts with `c` goes on with. -/
theorem Form.tail_cases (h : Form (c :: tail) kind) :
    (∃ y ∈ Kind.punctuation, y.1 = c ∧ tail = []) ∨
    (∃ y ∈ Kind.joinable, y.1 = c ∧ (tail = [] ∨ tail = ['='])) ∨
    (c = '"' ∧ ∃ body, '"' ∉ body ∧ tail = body ++ ['"']) ∨
    (isLetter c ∧ ∀ x ∈ tail, isLetter x || isDigit x) ∨
    (isDigit c ∧ ((∀ x ∈ tail, isDigit x) ∨
      ∃ digits more, (∀ x ∈ digits, isDigit x) ∧ IsDigits more ∧ tail = digits ++ '.' :: more)) := by
  generalize htext : c :: tail = text at h
  cases h with
  | mark hmark =>
    obtain ⟨y, hy, heq⟩ | ⟨y, hy, heq⟩ := mark_cases _ hmark
    · simp only [← htext, List.cons.injEq] at heq
      exact .inl ⟨y, hy, heq.1.symm, heq.2⟩
    · simp only [← htext, List.cons.injEq] at heq
      cases heq with
      | inl heq => exact .inr (.inl ⟨y, hy, heq.1.symm, .inl heq.2⟩)
      | inr heq => exact .inr (.inl ⟨y, hy, heq.1.symm, .inr heq.2⟩)
  | string hbody =>
    obtain ⟨rfl, rfl⟩ := List.cons.inj htext
    exact .inr (.inr (.inl ⟨rfl, _, hbody, rfl⟩))
  | reserved hword _ =>
    subst htext
    exact .inr (.inr (.inr (.inl hword)))
  | identifier hword _ =>
    subst htext
    exact .inr (.inr (.inr (.inl hword)))
  | whole hdigits =>
    subst htext
    exact .inr (.inr (.inr (.inr ⟨hdigits.1, .inl hdigits.2⟩)))
  | @fraction digits more hdigits hmore =>
    cases digits with
    | nil => exact absurd hdigits id
    | cons d digits =>
      obtain ⟨rfl, rfl⟩ := List.cons.inj htext
      exact .inr (.inr (.inr (.inr ⟨hdigits.1, .inr ⟨digits, more, hdigits.2, hmore, rfl⟩⟩)))

theorem Form.ne_nil (h : Form p kind) : p ≠ [] := by
  intro hp
  cases h with
  | mark hmark =>
    subst hp
    obtain ⟨y, _, heq⟩ | ⟨y, _, heq | heq⟩ := mark_cases _ hmark
    · cases heq
    · cases heq
    · cases heq
  | string _ => cases hp
  | reserved hword _ =>
    subst hp
    exact hword
  | identifier hword _ =>
    subst hp
    exact hword
  | whole hdigits =>
    subst hp
    exact hdigits
  | fraction => simp at hp

/-- A form at the start of a text starts with its first character. -/
theorem Form.of_prefix (h : Form p kind) (hp : p <+: c :: rest) :
    ∃ tail, p = c :: tail ∧ Form (c :: tail) kind ∧ tail <+: rest := by
  obtain hnil | ⟨tail, rfl, htail⟩ := List.prefix_cons_iff.mp hp
  · exact absurd hnil h.ne_nil
  · exact ⟨tail, rfl, h, htail⟩

/-- Characters of a class at the start of a text are no more than the run of them. -/
theorem length_le_takeWhile {q : Char → Bool} (hq : ∀ x ∈ tail, q x) (h : tail <+: rest) :
    tail.length ≤ (rest.takeWhile q).length := by
  obtain ⟨after, rfl⟩ := h
  rw [List.takeWhile_append_of_pos hq, List.length_append]
  omega

/-- Runs of a class that are followed by no more of it end at the same place. -/
theorem runs_unique {q : Char → Bool} {run run' rest rest' : List Char}
    (hrun : ∀ c ∈ run, q c = true) (hrun' : ∀ c ∈ run', q c = true)
    (hrest : ∀ c ∈ rest.head?, q c = false) (hrest' : ∀ c ∈ rest'.head?, q c = false)
    (h : run ++ rest = run' ++ rest') : run = run' ∧ rest = rest' := by
  have hstop : ∀ {r : List Char}, (∀ c ∈ r.head?, q c = false) → r.takeWhile q = [] := by
    intro r hr
    cases r with
    | nil => rfl
    | cons c r => simp [hr c rfl]
  have htake := congrArg (List.takeWhile q) h
  rw [List.takeWhile_append_of_pos hrun, List.takeWhile_append_of_pos hrun', hstop hrest,
    hstop hrest', List.append_nil, List.append_nil] at htake
  subst htake
  exact ⟨rfl, List.append_cancel_left h⟩

theorem isWord_read (hc : isLetter c) (rest : List Char) :
    IsWord (c :: (Piece.wordTail rest).1) := by
  refine ⟨hc, fun x hx => ?_⟩
  have hrun : x ∈ rest.takeWhile fun c => isLetter c || isDigit c := hx
  have hclass := List.mem_takeWhile_imp hrun
  exact hclass

theorem form_word {text : List Char} (h : IsWord text) : Form text (Kind.ofWord (String.ofList text)) := by
  unfold Kind.ofWord
  cases hlookup : Kind.reserved.lookup (String.ofList text) with
  | none =>
    refine .identifier h fun kind hmem => ?_
    have hne := List.lookup_eq_none_iff.mp hlookup _ hmem
    simp at hne
  | some kind =>
    obtain ⟨before, after, heq, -⟩ := List.lookup_eq_some_iff.mp hlookup
    refine .reserved h ?_
    rw [heq]
    simp

theorem form_number (hc : isDigit c) (rest : List Char) :
    Form (c :: (Piece.numberTail rest).1) .number := by
  have hrun : ∀ text : List Char, ∀ x ∈ text.takeWhile isDigit, isDigit x :=
    fun _ _ hx => List.mem_takeWhile_imp hx
  unfold Piece.numberTail
  split
  · rename_i d after h
    split
    · rename_i hd
      have hmore : IsDigits ((d :: after).takeWhile isDigit) := by
        simp only [List.takeWhile_cons, hd, if_true]
        exact ⟨hd, hrun after⟩
      have hdigits : IsDigits (c :: rest.takeWhile isDigit) := ⟨hc, hrun rest⟩
      exact .fraction hdigits hmore
    · exact .whole ⟨hc, hrun rest⟩
  · exact .whole ⟨hc, hrun rest⟩

theorem numberTail_whole (hq : ∀ x ∈ tail, isDigit x) (h : tail <+: rest) :
    tail.length ≤ (Piece.numberTail rest).1.length := by
  have hrun := length_le_takeWhile hq h
  unfold Piece.numberTail
  split
  · split
    · simp only [List.length_append]
      omega
    · exact hrun
  · exact hrun

theorem numberTail_fraction {digits more : List Char} (hq : ∀ x ∈ digits, isDigit x)
    (hmore : IsDigits more) (h : digits ++ '.' :: more <+: rest) :
    (digits ++ '.' :: more).length ≤ (Piece.numberTail rest).1.length := by
  obtain ⟨after, rfl⟩ := h
  cases more with
  | nil => exact absurd hmore id
  | cons d more =>
    have hdot : isDigit '.' = false := by decide
    have hrun := length_le_takeWhile hmore.2 (List.prefix_append more after)
    simp only [Piece.numberTail, List.append_assoc, List.cons_append,
      List.takeWhile_append_of_pos hq, List.dropWhile_append_of_pos hq, List.takeWhile_cons,
      List.dropWhile_cons, hdot, Bool.false_eq_true, if_false, List.append_nil, hmore.1, if_true,
      List.length_append, List.length_cons]
    omega

section Kinds

theorem lookup_mark : ∀ x ∈ marks, marks.lookup x.1 = some x.2 := by decide

theorem ofWord_reserved : ∀ x ∈ Kind.reserved, Kind.ofWord x.1 = x.2 := by decide

def kindOf (text : List Char) : Kind :=
  match marks.lookup text, text.head? with
  | some kind, _ => kind
  | none, none => .unknown
  | none, some c =>
    if c = '"' then .string else if isLetter c then Kind.ofWord (String.ofList text) else .number

theorem lookup_marks_eq_none (hc : isLetter c ∨ isDigit c ∨ c = '"') (tail : List Char) :
    marks.lookup (c :: tail) = none := by
  refine List.lookup_eq_none_iff.mpr fun x hx => ?_
  have hne : x.1 ≠ c :: tail := by
    intro heq
    obtain ⟨y, hy, hmark⟩ | ⟨y, hy, hmark⟩ := mark_cases x hx
    · obtain ⟨hletter, hdigit, hquote, -⟩ := punctuation_apart y hy
      obtain rfl : c = y.1 := (List.cons.inj (heq.symm.trans hmark)).1
      simp [hletter, hdigit, hquote] at hc
    · obtain ⟨hletter, hdigit, hquote⟩ := joinable_apart y hy
      obtain rfl : c = y.1 := by
        simp only [heq, List.cons.injEq] at hmark
        cases hmark with
        | inl hmark => exact hmark.1
        | inr hmark => exact hmark.1
      simp [hletter, hdigit, hquote] at hc
  simpa using hne.symm

theorem kindOf_word (h : IsWord p) : kindOf p = Kind.ofWord (String.ofList p) := by
  cases p with
  | nil => exact absurd h id
  | cons c tail =>
    have hquote : c ≠ '"' := by
      intro heq
      subst heq
      exact absurd h.1 (by decide)
    simp [kindOf, lookup_marks_eq_none (.inl h.1), hquote, h.1]

theorem kindOf_digits (h : IsDigits p) (rest : List Char) : kindOf (p ++ rest) = .number := by
  cases p with
  | nil => exact absurd h id
  | cons c tail =>
    have hquote : c ≠ '"' := by
      intro heq
      subst heq
      exact absurd h.1 (by decide)
    have hletter : isLetter c = false := by
      cases hc : isLetter c with
      | false => rfl
      | true => simpa [isDigit_of_isLetter hc] using h.1
    simp [kindOf, lookup_marks_eq_none (.inr (.inl h.1)), hquote, hletter]

theorem Form.kindOf_eq (h : Form p kind) : kindOf p = kind := by
  cases h with
  | mark hmark => simp [kindOf, lookup_mark _ hmark]
  | string _ => simp [kindOf, lookup_marks_eq_none]
  | reserved hword hmem => rw [kindOf_word hword, ofWord_reserved _ hmem]
  | identifier hword hnone =>
    have hlookup : Kind.reserved.lookup (String.ofList p) = none := by
      refine List.lookup_eq_none_iff.mpr fun x hx => ?_
      have hne : x.1 ≠ String.ofList p := fun heq => hnone x.2 (heq ▸ hx)
      simpa using hne.symm
    rw [kindOf_word hword, Kind.ofWord, hlookup]
    rfl
  | whole hdigits => simpa using kindOf_digits hdigits []
  | fraction hdigits _ => exact kindOf_digits hdigits _

end Kinds

section Classes

theorem Form.tail_punctuation {y : Char × Kind} (hy : y ∈ Kind.punctuation)
    (h : Form (y.1 :: tail) kind) : tail = [] := by
  obtain ⟨hletter, hdigit, hquote, hjoin⟩ := punctuation_apart y hy
  obtain ⟨_, _, _, htail⟩ | ⟨z, hz, heq, _⟩ | ⟨heq, _⟩ | ⟨hl, _⟩ | ⟨hd, _⟩ := h.tail_cases
  · exact htail
  · exact absurd heq (hjoin z hz)
  · exact absurd heq hquote
  · simp [hletter] at hl
  · simp [hdigit] at hd

theorem Form.tail_joinable {y : Char × Kind × Kind} (hy : y ∈ Kind.joinable)
    (h : Form (y.1 :: tail) kind) : tail = [] ∨ tail = ['='] := by
  obtain ⟨hletter, hdigit, hquote⟩ := joinable_apart y hy
  obtain ⟨z, hz, heq, _⟩ | ⟨_, _, _, htail⟩ | ⟨heq, _⟩ | ⟨hl, _⟩ | ⟨hd, _⟩ := h.tail_cases
  · exact absurd heq.symm ((punctuation_apart z hz).2.2.2 y hy)
  · exact htail
  · exact absurd heq hquote
  · simp [hletter] at hl
  · simp [hdigit] at hd

theorem Form.tail_string (h : Form ('"' :: tail) kind) :
    ∃ body, '"' ∉ body ∧ tail = body ++ ['"'] := by
  obtain ⟨y, hy, heq, _⟩ | ⟨y, hy, heq, _⟩ | ⟨_, hbody⟩ | ⟨hl, _⟩ | ⟨hd, _⟩ := h.tail_cases
  · exact absurd heq (punctuation_apart y hy).2.2.1
  · exact absurd heq (joinable_apart y hy).2.2
  · exact hbody
  · exact absurd hl (by decide)
  · exact absurd hd (by decide)

theorem Form.tail_word (hc : isLetter c) (h : Form (c :: tail) kind) :
    ∀ x ∈ tail, isLetter x || isDigit x := by
  obtain ⟨y, hy, rfl, _⟩ | ⟨y, hy, rfl, _⟩ | ⟨rfl, _⟩ | ⟨_, htail⟩ | ⟨hd, _⟩ := h.tail_cases
  · simp [(punctuation_apart y hy).1] at hc
  · simp [(joinable_apart y hy).1] at hc
  · exact absurd hc (by decide)
  · exact htail
  · simp [isDigit_of_isLetter hc] at hd

theorem Form.tail_number (hc : isDigit c) (h : Form (c :: tail) kind) :
    (∀ x ∈ tail, isDigit x) ∨
      ∃ digits more, (∀ x ∈ digits, isDigit x) ∧ IsDigits more ∧ tail = digits ++ '.' :: more := by
  obtain ⟨y, hy, rfl, _⟩ | ⟨y, hy, rfl, _⟩ | ⟨rfl, _⟩ | ⟨hl, _⟩ | ⟨_, htail⟩ := h.tail_cases
  · simp [(punctuation_apart y hy).2.1] at hc
  · simp [(joinable_apart y hy).2.1] at hc
  · exact absurd hc (by decide)
  · simp [isDigit_of_isLetter hl] at hc
  · exact htail

end Classes

def Longest (ahead : List Char) : Piece → Prop
  | .proper kind text =>
    Form text kind ∧ ∀ p k, Form p k → p <+: ahead → p.length ≤ text.length
  | .openString text => Formless ahead ∧ ahead.head? = some '"' ∧ text = ahead
  | .stray x => Formless ahead ∧ ahead.head? = some x ∧ x ≠ '"'

theorem longest_string (rest : List Char) :
    Longest ('"' :: rest) (Piece.closeString ['"'] rest).1 := by
  unfold Piece.closeString
  split
  · rename_i h
    have hrest := List.dropWhile_eq_nil_iff.mp h
    refine ⟨fun p k hp hpre => ?_, rfl, rfl⟩
    obtain ⟨tail, rfl, hform, htail⟩ := hp.of_prefix hpre
    obtain ⟨body, -, rfl⟩ := hform.tail_string
    have hquote := hrest '"' (htail.subset (by simp))
    simp at hquote
  · rename_i quote after h
    have hquote : quote = '"' := by
      have hhead := List.head?_dropWhile_not (· != '"') rest
      simpa [h] using hhead
    subst hquote
    have hbody : '"' ∉ rest.takeWhile (· != '"') := by
      intro hmem
      simpa using List.mem_takeWhile_imp hmem
    refine ⟨.string hbody, fun p k hp hpre => ?_⟩
    obtain ⟨tail, rfl, hform, htail⟩ := hp.of_prefix hpre
    obtain ⟨body, hfree, rfl⟩ := hform.tail_string
    have hopen : ∀ x ∈ body, x != '"' := by
      intro x hx
      have hne : x ≠ '"' := fun heq => hfree (heq ▸ hx)
      simpa using hne
    have hlength := length_le_takeWhile hopen ((List.prefix_append body _).trans htail)
    simpa using hlength

/-- Reading takes the longest form ahead. -/
theorem read_longest (c : Char) (rest : List Char) : Longest (c :: rest) (Piece.read c rest).1 := by
  unfold Piece.read
  split
  · rename_i kind hlookup
    obtain ⟨before, after, heq, -⟩ := List.lookup_eq_some_iff.mp hlookup
    have hy : (c, kind) ∈ Kind.punctuation := by simp [heq]
    refine ⟨.mark (mark_of_punctuation _ hy), fun p k hp hpre => ?_⟩
    obtain ⟨tail, rfl, hform, -⟩ := hp.of_prefix hpre
    simp [hform.tail_punctuation hy]
  · rename_i alone joined _ hlookup
    obtain ⟨before, after, heq, -⟩ := List.lookup_eq_some_iff.mp hlookup
    have hy : (c, alone, joined) ∈ Kind.joinable := by simp [heq]
    obtain ⟨halone, hjoined⟩ := mark_of_joinable _ hy
    split
    · refine ⟨.mark hjoined, fun p k hp hpre => ?_⟩
      obtain ⟨tail, rfl, hform, -⟩ := hp.of_prefix hpre
      cases hform.tail_joinable hy with
      | inl htail => simp [htail]
      | inr htail => simp [htail]
    · rename_i hnext
      refine ⟨.mark halone, fun p k hp hpre => ?_⟩
      obtain ⟨tail, rfl, hform, ⟨more, hmore⟩⟩ := hp.of_prefix hpre
      cases hform.tail_joinable hy with
      | inl htail => simp [htail]
      | inr htail =>
        -- the joined form would need the `=` that does not follow
        subst htail
        exact absurd hmore.symm (hnext more)
  · rename_i hpunctuation hjoinable
    split
    · rename_i hquote
      subst hquote
      exact longest_string rest
    · rename_i hquote
      split
      · rename_i hc
        refine ⟨form_word (isWord_read hc rest), fun p k hp hpre => ?_⟩
        obtain ⟨tail, rfl, hform, htail⟩ := hp.of_prefix hpre
        have hlength := length_le_takeWhile (hform.tail_word hc) htail
        simpa [Piece.wordTail] using hlength
      · rename_i hletter
        split
        · rename_i hc
          refine ⟨form_number hc rest, fun p k hp hpre => ?_⟩
          obtain ⟨tail, rfl, hform, htail⟩ := hp.of_prefix hpre
          obtain hwhole | ⟨digits, more, hdigits, hmore, rfl⟩ := hform.tail_number hc
          · simpa using numberTail_whole hwhole htail
          · simpa using numberTail_fraction hdigits hmore htail
        · rename_i hdigit
          refine ⟨fun p k hp hpre => ?_, rfl, hquote⟩
          obtain ⟨tail, rfl, hform, -⟩ := hp.of_prefix hpre
          obtain ⟨y, hy, rfl, _⟩ | ⟨y, hy, rfl, _⟩ | ⟨rfl, _⟩ | ⟨hl, _⟩ | ⟨hd, _⟩ := hform.tail_cases
          · simpa using List.lookup_eq_none_iff.mp hpunctuation y hy
          · simpa using List.lookup_eq_none_iff.mp hjoinable y hy
          · exact hquote rfl
          · exact hletter hl
          · exact hdigit hd

end Reckon.Lexer
