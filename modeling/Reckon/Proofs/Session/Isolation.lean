import Reckon.Session

/-! A session answers each line by itself. Of the lines before it only those that switch the verbose
mode matter, by their number; so a line that fails in any way leaves all other answers as they are. -/
namespace Reckon.Session

def leaves (line : String) : Bool :=
  Text.trim line == "exit" || Text.trim line == "quit"

def toggles (line : String) : Bool :=
  (Text.trim line).toList.map Char.toLower == "verbose-mode".toList

def verboseAfter (verbose : Bool) (lines : List String) : Bool :=
  verbose ^^ (lines.countP toggles % 2 == 1)

def reply (verbose : Bool) (line : String) : String :=
  match respond verbose line with
  | .stay output _ => output
  | .leave output => output

def heard (lines : List String) : List String :=
  lines.takeWhile fun line => !leaves line

variable {verbose : Bool} {line blank : String} {lines before after : List String}

theorem verboseAfter_nil : verboseAfter verbose [] = verbose := by
  simp [verboseAfter]

theorem verboseAfter_cons (verbose : Bool) (line : String) (lines : List String) :
    verboseAfter verbose (line :: lines) = verboseAfter (verbose ^^ toggles line) lines := by
  have hparity : ∀ n : Nat, ((n + 1) % 2 == 1) = !(n % 2 == 1) := by
    intro n
    obtain h | h := Nat.mod_two_eq_zero_or_one n
    · simp [Nat.add_mod, h]
    · simp [Nat.add_mod, h]
  cases h : toggles line
  · simp [verboseAfter, h]
  · simp [verboseAfter, h, hparity]

theorem respond_of_leaves (h : leaves line = true) : respond verbose line = .leave farewell := by
  have hexit : Text.trim line = "exit" ∨ Text.trim line = "quit" := by simpa [leaves] using h
  simp [respond, hexit]

theorem not_toggles_of_skipped
    (h : Text.trim line = "" ∨ ['/', '/'].isPrefixOf (Text.trim line).toList = true) :
    toggles line = false := by
  unfold toggles
  cases h with
  | inl hblank =>
    rw [hblank]
    decide
  | inr hcomment =>
    obtain ⟨rest, hrest⟩ := List.isPrefixOf_iff_prefix.mp hcomment
    rw [← hrest]
    rfl

/-- A line that does not end the session is answered, and switches the mode only if it says so. -/
theorem respond_of_not_leaves (h : leaves line = false) :
    respond verbose line = .stay (reply verbose line) (verbose ^^ toggles line) := by
  have hexit : ¬ (Text.trim line = "exit" ∨ Text.trim line = "quit") := by simpa [leaves] using h
  by_cases hskip : Text.trim line = "" ∨ ['/', '/'].isPrefixOf (Text.trim line).toList = true
  · have hrespond : respond verbose line = .stay "" verbose := by
      rw [respond]
      simp only [if_neg hexit, if_pos hskip]
    rw [reply, hrespond, not_toggles_of_skipped hskip, Bool.xor_false]
  · by_cases htoggle : (Text.trim line).toList.map Char.toLower = "verbose-mode".toList
    · have hrespond : respond verbose line =
          .stay ("[mode] >>> Verbose mode " ++ (if verbose then "OFF" else "ON") ++ "\n") !verbose := by
        rw [respond]
        simp only [if_neg hexit, if_neg hskip, if_pos htoggle]
      have htoggles : toggles line = true := by simpa [toggles] using htoggle
      rw [reply, hrespond, htoggles, Bool.xor_true]
    · have htoggles : toggles line = false := by simpa [toggles] using htoggle
      rw [reply, htoggles, Bool.xor_false, respond]
      simp only [if_neg hexit, if_neg hskip, if_neg htoggle]
      split <;> rfl

theorem converse_cons_leaves (h : leaves line = true) (verbose : Bool) (lines : List String) :
    converse verbose (line :: lines) = ⟨[farewell], lines.length⟩ := by
  rw [converse, respond_of_leaves h]

theorem converse_cons (h : leaves line = false) (verbose : Bool) (lines : List String) :
    converse verbose (line :: lines) =
      ⟨(reply verbose line ++ prompt) :: (converse (verbose ^^ toggles line) lines).pieces,
        (converse (verbose ^^ toggles line) lines).unread⟩ := by
  rw [converse, respond_of_not_leaves h]

def lastWords (lines : List String) : String :=
  if (heard lines).length < lines.length then farewell else "\n" ++ farewell

theorem converse_eq (verbose : Bool) (lines : List String) :
    converse verbose lines =
      ⟨(heard lines).mapIdx (fun k line => reply (verboseAfter verbose (lines.take k)) line ++ prompt)
          ++ [lastWords lines],
        lines.length - ((heard lines).length + 1)⟩ := by
  induction lines generalizing verbose with
  | nil => rfl
  | cons line lines ih =>
    cases h : leaves line with
    | true => simp [converse_cons_leaves h, heard, lastWords, h]
    | false =>
      have hheard : heard (line :: lines) = line :: heard lines := by simp [heard, h]
      have hlast : lastWords (line :: lines) = lastWords lines := by simp [lastWords, hheard]
      rw [converse_cons h, ih, hheard, hlast, List.mapIdx_cons]
      simp [verboseAfter_nil, verboseAfter_cons]

/-- Two transcripts leave the same number of lines unread and have the same pieces, but for the piece
at `k`. -/
structure AgreeExcept (k : Nat) (told told' : Transcript) : Prop where
  unread : told.unread = told'.unread
  length : told.pieces.length = told'.pieces.length
  pieces : ∀ j, j ≠ k → told.pieces[j]? = told'.pieces[j]?

theorem agreeExcept_refl (k : Nat) (told : Transcript) : AgreeExcept k told told :=
  ⟨rfl, rfl, fun _ _ => rfl⟩

theorem agreeExcept_head (piece piece' : String) (pieces : List String) (unread : Nat) :
    AgreeExcept 0 ⟨piece :: pieces, unread⟩ ⟨piece' :: pieces, unread⟩ := by
  refine ⟨rfl, by simp, fun j hj => ?_⟩
  cases j with
  | zero => exact absurd rfl hj
  | succ j => simp

theorem AgreeExcept.cons {k : Nat} {told told' : Transcript} (h : AgreeExcept k told told')
    (piece : String) :
    AgreeExcept (k + 1) ⟨piece :: told.pieces, told.unread⟩ ⟨piece :: told'.pieces, told'.unread⟩ := by
  refine ⟨h.unread, by simp [h.length], fun j hj => ?_⟩
  cases j with
  | zero => simp
  | succ j =>
    have hpiece := h.pieces j fun hjk => hj (by rw [hjk])
    simpa using hpiece

/-- Two lines that neither end the session nor differ in what they do to the mode differ in their own
answers only. -/
theorem converse_replace (hline : leaves line = false) (hblank : leaves blank = false)
    (htoggles : toggles line = toggles blank) (verbose : Bool) (before after : List String) :
    AgreeExcept before.length (converse verbose (before ++ line :: after))
      (converse verbose (before ++ blank :: after)) := by
  induction before generalizing verbose with
  | nil =>
    rw [List.nil_append, List.nil_append, converse_cons hline, converse_cons hblank, htoggles]
    exact agreeExcept_head _ _ _ _
  | cons first before ih =>
    rw [List.cons_append, List.cons_append]
    cases hfirst : leaves first with
    | true =>
      rw [converse_cons_leaves hfirst, converse_cons_leaves hfirst, List.length_append,
        List.length_append]
      exact agreeExcept_refl _ _
    | false =>
      rw [converse_cons hfirst, converse_cons hfirst]
      exact (ih (verbose ^^ toggles first)).cons _

theorem blank_plain (h : Text.trim blank = "") : leaves blank = false ∧ toggles blank = false := by
  refine ⟨?_, not_toggles_of_skipped (.inl h)⟩
  rw [leaves, h]
  decide

/-- A session hears the lines up to the first that ends it, or all of them. What it writes between two
reads answers the line read, under the mode that the toggles before it left, and asks for the next;
then it takes its leave. A line of no effect on the session can be replaced by a blank one: all other
pieces and the number of lines read stay the same. -/
theorem answers_each_line_alone (verbose : Bool) (lines : List String) :
    hold verbose lines =
      ⟨(greeting ++ prompt) :: ((heard lines).mapIdx
          (fun k line => reply (verboseAfter verbose (lines.take k)) line ++ prompt)
            ++ [lastWords lines]),
        lines.length - ((heard lines).length + 1)⟩ ∧
    ∀ before line after blank, lines = before ++ line :: after → leaves line = false →
      toggles line = false → Text.trim blank = "" →
        AgreeExcept (before.length + 1) (hold verbose lines)
          (hold verbose (before ++ blank :: after)) := by
  refine ⟨by rw [hold, converse_eq], ?_⟩
  rintro before line after blank rfl hleaves htoggles htrim
  obtain ⟨hblank, hblank'⟩ := blank_plain htrim
  have hconverse :=
    converse_replace hleaves hblank (htoggles.trans hblank'.symm) verbose before after
  exact hconverse.cons _

/-- The line that cannot be read is not heard of again; the mode is switched and the session left as
without it. -/
theorem answers_each_line_alone_after_fault :
    let after := ["Verbose-Mode", " quit ", "2"]
    leaves "1 <" = false ∧ toggles "1 <" = false ∧ Text.trim "\t" = "" ∧
      (hold false ("1 <" :: after)).unread = 1 ∧
      AgreeExcept 1 (hold false ("1 <" :: after)) (hold false ("\t" :: after)) := by
  intro after
  have hleaves : leaves "1 <" = false := by decide
  have htoggles : toggles "1 <" = false := by decide
  have htrim : Text.trim "\t" = "" := by decide
  obtain ⟨htold, hreplace⟩ := answers_each_line_alone false ("1 <" :: after)
  refine ⟨hleaves, htoggles, htrim, ?_, hreplace [] "1 <" after "\t" rfl hleaves htoggles htrim⟩
  rw [htold]
  decide

end Reckon.Session
