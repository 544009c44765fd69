import Reckon.Proofs.Node.Fold
import Reckon.Proofs.Text.Quoted
import Reckon.Proofs.Token.Form

/-! The written forms of a tree. The text that names constructors, lexemes and children can be read back in
one way only: the name of the constructor ends at the parenthesis and tells whether a lexeme follows and
how many children, a lexeme ends at its quote, and a child where its own text ends. The outline without
its places is the tree again. So both forms are equal for equal trees, and for no others. -/
namespace Reckon.Node
open Lexer (runs_unique)
variable {a b : Node} {room : Nat} {s t : String} {xs ys : List String} {rest rest' : List Char}

section Text

def valuePart (node : Node) : List String :=
  (node.value?.map fun lexeme => "value=" ++ Text.quoted lexeme).toList

def childrenPart (texts : List String) : List String :=
  if texts = [] then [] else ["children=[" ++ ", ".intercalate texts ++ "]"]

def written (node : Node) (texts : List String) : String :=
  node.className ++ "(" ++
    ", ".intercalate (node.label :: valuePart node ++ childrenPart texts) ++ ")"

theorem describe?_folds : Folds describe? written where
  zero _ := rfl
  succ _ _ := (Option.map_eq_bind ..).symm

def trailing (texts : List String) : List Char :=
  texts.flatMap fun text => ", ".toList ++ text.toList

theorem toList_intercalate_cons (s : String) (texts : List String) :
    (", ".intercalate (s :: texts)).toList = s.toList ++ trailing texts := by
  induction texts generalizing s with
  | nil => rw [String.intercalate_singleton, trailing, List.flatMap_nil, List.append_nil]
  | cons t texts ih =>
    rw [String.intercalate_cons_cons, String.toList_append, String.toList_append, ih,
      trailing, trailing, List.flatMap_cons, List.append_assoc, List.append_assoc]

theorem toList_written (node : Node) (texts : List String) :
    (written node texts).toList = node.className.toList ++ '(' :: (node.label.toList ++
      (trailing (valuePart node) ++ (trailing (childrenPart texts) ++ [')']))) := by
  have hopen : "(".toList = ['('] := rfl
  have hclose : ")".toList = [')'] := rfl
  rw [written, List.cons_append, String.toList_append, String.toList_append, String.toList_append,
    toList_intercalate_cons, trailing, List.flatMap_append, hopen, hclose]
  simp only [trailing, List.append_assoc, List.cons_append, List.nil_append]

theorem trailing_cons_append (s : String) (texts : List String) (rest : List Char) :
    trailing (s :: texts) ++ rest = ", ".toList ++ (s.toList ++ (trailing texts ++ rest)) := by
  rw [trailing, List.flatMap_cons, List.append_assoc, List.append_assoc]
  rfl

theorem className_ne_paren (a : Node) : ∀ c ∈ a.className.toList, (c != '(') = true := by
  rcases a with ⟨_ | _ | _, _⟩ | _ | _ | _ | _ | _ <;> simp [className, Family.name]

theorem valuePart_unique (hsome : a.value?.isSome = b.value?.isSome)
    (h : trailing (valuePart a) ++ rest = trailing (valuePart b) ++ rest') :
    a.value? = b.value? ∧ rest = rest' := by
  unfold valuePart at h
  cases ha : a.value? with
  | none =>
    cases hb : b.value? with
    | none => exact ⟨rfl, by simpa [ha, hb, trailing] using h⟩
    | some _ => simp [ha, hb] at hsome
  | some lexeme =>
    cases hb : b.value? with
    | none => simp [ha, hb] at hsome
    | some lexeme' =>
      simp only [ha, hb, Option.map_some, Option.toList_some, trailing_cons_append,
        String.toList_append, List.append_assoc] at h
      obtain ⟨hlexeme, hrest⟩ := 
        Text.quoted_unique (List.append_cancel_left (List.append_cancel_left h))
      exact ⟨congrArg some hlexeme, hrest⟩

def Telling (room : Nat) : Prop :=
  ∀ ⦃a b s t rest rest'⦄, describe? room a = some s → describe? room b = some t →
    s.toList ++ rest = t.toList ++ rest' → same a b = true ∧ rest = rest'

section Telling
variable {as bs : List Node}

theorem Telling.trailing_unique (h : Telling room)
    (ha : List.Forall₂ (fun a s => describe? room a = some s) as xs)
    (hb : List.Forall₂ (fun b t => describe? room b = some t) bs ys)
    (hlength : as.length = bs.length) (htext : trailing xs ++ rest = trailing ys ++ rest') :
    List.Forall₂ (fun a b => same a b = true) as bs ∧ rest = rest' := by
  induction ha generalizing bs ys with
  | nil =>
    cases hb with
    | nil => exact ⟨.nil, htext⟩
    | cons _ _ => simp at hlength
  | cons ha _ ih =>
    cases hb with
    | nil => simp at hlength
    | cons hb hbs =>
      rw [trailing_cons_append, trailing_cons_append] at htext
      obtain ⟨hsame, hmore⟩ := h ha hb (List.append_cancel_left htext)
      obtain ⟨hall, hrest⟩ := ih hbs (Nat.succ.inj hlength) hmore
      exact ⟨.cons hsame hall, hrest⟩

theorem Telling.children_unique (h : Telling room)
    (ha : List.Forall₂ (fun a s => describe? room a = some s) as xs)
    (hb : List.Forall₂ (fun b t => describe? room b = some t) bs ys)
    (hlength : as.length = bs.length)
    (htext : trailing (childrenPart xs) ++ rest = trailing (childrenPart ys) ++ rest') :
    List.Forall₂ (fun a b => same a b = true) as bs ∧ rest = rest' := by
  cases ha with
  | nil =>
    cases hb with
    | nil => exact ⟨.nil, htext⟩
    | cons _ _ => simp at hlength
  | cons ha has =>
    cases hb with
    | nil => simp at hlength
    | cons hb hbs =>
      simp only [childrenPart, reduceCtorEq, if_false, trailing_cons_append, String.toList_append,
        List.append_assoc, toList_intercalate_cons] at htext
      obtain ⟨hsame, hmore⟩ :=
        h ha hb (List.append_cancel_left (List.append_cancel_left htext))
      obtain ⟨hall, hend⟩ := h.trailing_unique has hbs (Nat.succ.inj hlength) hmore
      exact ⟨.cons hsame hall, List.append_cancel_left (List.append_cancel_left hend)⟩

theorem Telling.succ (h : Telling room) : Telling (room + 1) := by
  intro a b s t rest rest' ha hb htext
  obtain ⟨xs, hxs, rfl⟩ := describe?_folds.of_eq_some ha
  obtain ⟨ys, hys, rfl⟩ := describe?_folds.of_eq_some hb
  simp only [toList_written, List.append_assoc, List.cons_append] at htext
  obtain ⟨hname, hinside⟩ :=
    runs_unique (className_ne_paren a) (className_ne_paren b) (by simp) (by simp) htext
  have hclass : a.className = b.className := String.toList_inj.mp hname
  obtain ⟨hlabel, hsome, hlength⟩ := of_className hclass
  rw [hlabel] at hinside
  obtain ⟨hvalue, hmore⟩ :=
    valuePart_unique hsome (List.append_cancel_left (List.cons.inj hinside).2)
  obtain ⟨hchildren, hend⟩ := h.children_unique hxs hys hlength hmore
  exact ⟨same_iff.mpr ⟨hclass, hvalue, hchildren⟩, (List.cons.inj hend).2⟩

theorem telling (room : Nat) : Telling room := by
  induction room with
  | zero => exact fun _ _ _ _ _ _ h => nomatch h
  | succ room ih => exact ih.succ

end Telling

theorem written_congr (h : a.className = b.className) (hvalue : a.value? = b.value?)
    (texts : List String) : written a texts = written b texts := by
  rw [written, written, valuePart, valuePart, h, hvalue, (of_className h).1]

theorem text_eq_iff (ha : describe? room a = some s) (hb : describe? room b = some t) :
    s = t ↔ same a b = true := by
  constructor
  · rintro rfl
    exact (telling room ha hb (rfl : s.toList ++ [] = s.toList ++ [])).1
  · intro hsame
    have heq := describe?_folds.eq_of_same written_congr hsame room
    rw [ha, hb] at heq
    exact Option.some.inj heq

end Text

section Outline
variable {o : Outline}

theorem outline?_folds :
    Folds outline? fun node outlines => .node node.label node.value? node.pos outlines where
  zero _ := rfl
  succ _ _ := (Option.map_eq_bind ..).symm

inductive Shape where
  | node (kind : String) (value : Option String) (children : List Shape)

def Outline.shape : Outline → Shape
  | node kind value _ children => .node kind value (children.map Outline.shape)

def shape : Node → Shape
  | bare _ _ => .node "node" none []
  | literal token => .node "literal" (some token.lexeme) []
  | unary op right => .node "unary" (some op.lexeme) [right.shape]
  | binary left op right => .node "binary" (some op.lexeme) [left.shape, right.shape]
  | expression inner => .node "expr_stmt" none [inner.shape]
  | print _ inner => .node "print" none [inner.shape]

theorem shape_eq (a : Node) : a.shape = .node a.label a.value? (a.children.map shape) := by
  cases a <;> rfl

theorem shape_outline (h : outline? room a = some o) : o.shape = a.shape := by
  induction room generalizing a o with
  | zero => cases h
  | succ room ih =>
    obtain ⟨outlines, houtlines, rfl⟩ := outline?_folds.of_eq_some h
    have hchildren : a.children.map shape = outlines.map Outline.shape :=
      map_eq_iff_forall₂.mpr (houtlines.imp fun _ _ h => (ih h).symm)
    rw [shape_eq, Outline.shape, hchildren]

def full : Node → Bool
  | bare _ _ => false
  | literal _ => true
  | unary _ right => right.full
  | binary left _ right => left.full && right.full
  | expression inner => inner.full
  | print _ inner => inner.full

theorem shape_eq_iff (ha : a.full = true) (hb : b.full = true) :
    a.shape = b.shape ↔ same a b = true := by
  fun_induction same a b with
  | case7 a b => cases a <;> cases b <;> grind [full, shape]
  | _ => simp_all [full, shape, and_assoc]

end Outline

/-- Of two trees within the room, text and outline can be made, and so can the comparison. The texts are
equal if the trees are, and for trees without bare nodes so are the outlines without their places. -/
theorem forms_tell_equality (ha : a.height ≤ room) (hb : b.height ≤ room) :
    ∃ equal text text' outline outline', same? room a b = some equal ∧
      describe? room a = some text ∧ describe? room b = some text' ∧
      outline? room a = some outline ∧ outline? room b = some outline' ∧
      (text = text' ↔ equal = true) ∧
      (a.full = true → b.full = true → (outline.shape = outline'.shape ↔ equal = true)) := by
  obtain ⟨text, htext⟩ := describe?_folds.exists_eq_some ha
  obtain ⟨text', htext'⟩ := describe?_folds.exists_eq_some hb
  obtain ⟨outline, houtline⟩ := outline?_folds.exists_eq_some ha
  obtain ⟨outline', houtline'⟩ := outline?_folds.exists_eq_some hb
  refine ⟨same a b, text, text', outline, outline', same?_eq_same ha b, htext, htext', houtline,
    houtline', text_eq_iff htext htext', fun hfull hfull' => ?_⟩
  rw [shape_outline houtline, shape_outline houtline', shape_eq_iff hfull hfull']

def sumOf (left right : String) : Node :=
  binary (literal ⟨.number, left, ⟨1, 1⟩, none⟩) ⟨.plus, "+", ⟨1, 3⟩, none⟩
    (literal ⟨.number, right, ⟨1, 5⟩, none⟩)

def imitation : Node := sumOf "1'), Literal(literal, value='2" "\"'\\\n"

theorem imitation_told : (sumOf "1" "2").height ≤ 2 ∧ imitation.height ≤ 2 ∧
    ∃ text text' outline outline',
      describe? 2 (sumOf "1" "2") = some text ∧ describe? 2 imitation = some text' ∧
      outline? 2 (sumOf "1" "2") = some outline ∧ outline? 2 imitation = some outline' ∧
      text ≠ text' ∧ outline.shape ≠ outline'.shape := by
  have hheight : ∀ left right, (sumOf left right).height ≤ 2 := fun _ _ => Nat.le_refl 2
  refine ⟨hheight _ _, hheight _ _, ?_⟩
  obtain ⟨equal, text, text', outline, outline', hequal, htext, htext', houtline, houtline',
    htell, hshape⟩ := forms_tell_equality (hheight "1" "2") (b := imitation) (hheight _ _)
  have hdiffer : equal = false := by
    simpa [sumOf, imitation, same?] using hequal.symm
  exact ⟨text, text', outline, outline', htext, htext', houtline, houtline',
    by simp [htell, hdiffer], by simp [hshape rfl rfl, hdiffer]⟩

end Reckon.Node
