import Reckon.Text.Quoted

/-! Quoted text read back. The first quote tells which one is in use; an escape tells how long it is by the
character after its backslash; and no other character looks like an escape or like the quote. So a quoted
text tells where it ends and what it quotes, whatever stands behind it. -/
namespace Reckon.Text
variable {quote c d : Char} {rest rest' : List Char}

section Hex

def hexValue (c : Char) : Nat :=
  if c.toNat < 97 then c.toNat - 48 else c.toNat - 87

def ofHex (digits : List Char) : Nat :=
  digits.foldl (fun n d => 16 * n + hexValue d) 0

theorem hexValue_hexDigit : ∀ n, n < 16 → hexValue (hexDigit n) = n := by decide

theorem length_hex (width n : Nat) : (hex width n).length = width := by
  induction width generalizing n with
  | zero => rfl
  | succ width ih => simp [hex, ih]

theorem ofHex_hex (width n : Nat) : ofHex (hex width n) = n % Nat.pow 16 width := by
  induction width generalizing n with
  | zero => simp [hex, ofHex, Nat.mod_one]
  | succ width ih =>
    have hpow : Nat.pow 16 (width + 1) = 16 * Nat.pow 16 width := Nat.pow_succ'
    have hfront : ofHex (hex width (n / 16)) = n / 16 % Nat.pow 16 width := ih (n / 16)
    unfold ofHex at hfront
    rw [hex, ofHex, List.foldl_append, hfront, hpow, Nat.mod_mul]
    simp only [List.foldl_cons, List.foldl_nil, hexValue_hexDigit _ (Nat.mod_lt n (by decide))]
    omega

end Hex

section Escape

def quotes : List Char := ['\'', '"']

theorem quoteOf_mem (cs : List Char) : quoteOf cs ∈ quotes := by
  unfold quoteOf
  split <;> decide

def lettered : List (Char × Char) := [('\n', 'n'), ('\r', 'r'), ('\t', 't')]

inductive Written (quote c : Char) : List Char → Prop
  | marked : c = quote ∨ c = '\\' → Written quote c ['\\', c]
  | letter {letter} : (c, letter) ∈ lettered → Written quote c ['\\', letter]
  | plain : c ≠ quote → c ≠ '\\' → Written quote c [c]
  | code : Written quote c (codeEscape c)

theorem escape_written (quote c : Char) : Written quote c (escape quote c) := by
  unfold escape
  split
  · rename_i h
    exact .marked h
  · rename_i h
    obtain ⟨hquote, hbackslash⟩ := not_or.mp h
    repeat' split
    · rename_i h
      exact .letter (by simp [h, lettered])
    · rename_i h
      exact .letter (by simp [h, lettered])
    · rename_i h
      exact .letter (by simp [h, lettered])
    · exact .plain hquote hbackslash
    · exact .code

def readCode (width : Nat) (text : List Char) : Char × List Char :=
  (Char.ofNat (ofHex (text.take width)), text.drop width)

def readMarked (mark : Char) (rest : List Char) : Char × List Char :=
  match mark with
  | 'n' => ('\n', rest)
  | 'r' => ('\r', rest)
  | 't' => ('\t', rest)
  | 'x' => readCode 2 rest
  | 'u' => readCode 4 rest
  | 'U' => readCode 8 rest
  | mark => (mark, rest)

def readEscaped : List Char → Option (Char × List Char)
  | [] => none
  | '\\' :: mark :: rest => some (readMarked mark rest)
  | c :: rest => some (c, rest)

theorem readCode_hex {width : Nat} (h : c.toNat < Nat.pow 16 width) (rest : List Char) :
    readCode width (hex width c.toNat ++ rest) = (c, rest) := by
  have hlength := length_hex width c.toNat
  rw [readCode, List.take_left' hlength, List.drop_left' hlength, ofHex_hex, Nat.mod_eq_of_lt h,
    Char.ofNat_toNat]

/-- Every character has a code of eight digits. -/
theorem toNat_lt_pow (c : Char) : c.toNat < Nat.pow 16 8 := by
  have hcode : c.toNat < 4294967296 := c.val.toNat_lt
  exact hcode

theorem readEscaped_code (c : Char) (rest : List Char) :
    readEscaped (codeEscape c ++ rest) = some (c, rest) := by
  unfold codeEscape
  split
  · rename_i h
    exact congrArg some (readCode_hex h rest)
  · split
    · rename_i h
      exact congrArg some (readCode_hex h rest)
    · exact congrArg some (readCode_hex (toNat_lt_pow c) rest)

theorem readEscaped_escape (hquote : quote ∈ quotes) (c : Char) (rest : List Char) :
    readEscaped (escape quote c ++ rest) = some (c, rest) := by
  have hwritten := escape_written quote c
  generalize escape quote c = text at hwritten ⊢
  cases hwritten with
  | marked hc =>
    have hself : ∀ x ∈ '\\' :: quotes, readMarked x rest = (x, rest) := by
      simp [quotes, readMarked]
    have hmem : c ∈ '\\' :: quotes := by
      obtain rfl | rfl := hc
      · exact List.mem_cons_of_mem _ hquote
      · exact List.mem_cons_self ..
    exact congrArg some (hself c hmem)
  | letter hletter =>
    have hall : ∀ x ∈ lettered, readMarked x.2 rest = (x.1, rest) := by
      simp [lettered, readMarked]
    exact congrArg some (hall _ hletter)
  | plain _ hbackslash => simp [readEscaped, hbackslash]
  | code => exact readEscaped_code c rest

theorem escape_unique (hquote : quote ∈ quotes)
    (h : escape quote c ++ rest = escape quote d ++ rest') : c = d ∧ rest = rest' := by
  have hread := congrArg readEscaped h
  rw [readEscaped_escape hquote, readEscaped_escape hquote] at hread
  exact Prod.mk.inj (Option.some.inj hread)

/-- The quote in use never starts a character. -/
theorem escape_ne_quote (hquote : quote ∈ quotes) (c : Char) (rest rest' : List Char) :
    escape quote c ++ rest ≠ quote :: rest' := by
  intro heq
  have hbackslash : '\\' ≠ quote := by
    rintro rfl
    exact absurd hquote (by decide)
  have hwritten := escape_written quote c
  generalize escape quote c = text at hwritten heq
  cases hwritten with
  | marked _ => exact hbackslash (List.cons.inj heq).1
  | letter _ => exact hbackslash (List.cons.inj heq).1
  | plain hne _ => exact hne (List.cons.inj heq).1
  | code =>
    unfold codeEscape at heq
    repeat' split at heq
    all_goals exact hbackslash (List.cons.inj heq).1

end Escape

section Quoted
variable {cs ds : List Char} {s t : String}

theorem quotedBody_unique (hquote : quote ∈ quotes)
    (h : cs.flatMap (escape quote) ++ quote :: rest = ds.flatMap (escape quote) ++ quote :: rest') :
    cs = ds ∧ rest = rest' := by
  induction cs generalizing ds with
  | nil =>
    cases ds with
    | nil => exact ⟨rfl, (List.cons.inj h).2⟩
    | cons d ds =>
      rw [List.flatMap_cons, List.append_assoc] at h
      exact absurd h.symm (escape_ne_quote hquote d _ _)
  | cons c cs ih =>
    cases ds with
    | nil =>
      rw [List.flatMap_cons, List.append_assoc] at h
      exact absurd h (escape_ne_quote hquote c _ _)
    | cons d ds =>
      rw [List.flatMap_cons, List.flatMap_cons, List.append_assoc, List.append_assoc] at h
      obtain ⟨rfl, hmore⟩ := escape_unique hquote h
      obtain ⟨rfl, hrest⟩ := ih hmore
      exact ⟨rfl, hrest⟩

theorem toList_quoted (s : String) :
    (quoted s).toList = quoteOf s.toList ::
      (s.toList.flatMap (escape (quoteOf s.toList)) ++ [quoteOf s.toList]) := by
  simp [quoted]

/-- A quoted text stands for one text only, and ends in one place only. -/
theorem quoted_unique (h : (quoted s).toList ++ rest = (quoted t).toList ++ rest') :
    s = t ∧ rest = rest' := by
  rw [toList_quoted, toList_quoted, List.cons_append, List.cons_append, List.append_assoc,
    List.append_assoc] at h
  obtain ⟨hquote, hbody⟩ := List.cons.inj h
  rw [← hquote] at hbody
  obtain ⟨hchars, hrest⟩ := quotedBody_unique (quoteOf_mem s.toList) hbody
  exact ⟨String.toList_inj.mp hchars, hrest⟩

end Quoted

end Reckon.Text
