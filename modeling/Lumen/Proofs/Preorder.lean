import Mathlib.Data.List.Basic
import Mathlib.Logic.Function.Iterate
import Lumen.Tree.Walk

/-!
# The order of a walk

A walk has no recursion to rely on: it takes an expression off the end of a
stack, lists it, and pushes its parts.  What it has listed together with what
the stack still stands for never changes, so turn by turn it lists what the
recursion over the tree lists, and the stack is empty when nothing is left.

An expression may occur at several places of a tree.  A place says which part to
go down to at every level, and the order of places as words is the order of the
walk, so it comes to every place exactly once.
-/

namespace Lumen

namespace Expr

/-! ## The recursive listing -/

/-- An expression, and behind it the listings of its parts from left to right. -/
def preorder : Expr → List Expr
  | binary left operator right =>
      binary left operator right :: (left.preorder ++ right.preorder)
  | grouping inner paren => grouping inner paren :: inner.preorder
  | literal value => [literal value]
  | unary operator operand => unary operator operand :: operand.preorder
  | reference name => [reference name]

/-- The loop lists what the recursion does. -/
theorem walk_eq_preorder (expr : Expr) : expr.walk = expr.preorder := by
  induction expr with
  | binary left operator right ihLeft ihRight =>
      rw [walk_eq, children, List.flatMap_cons, List.flatMap_singleton, ihLeft, ihRight, preorder]
  | grouping inner paren ih => rw [walk_eq, children, List.flatMap_singleton, ih, preorder]
  | literal value => rw [walk_eq, children, List.flatMap_nil, preorder]
  | unary operator operand ih => rw [walk_eq, children, List.flatMap_singleton, ih, preorder]
  | reference name => rw [walk_eq, children, List.flatMap_nil, preorder]

/-! ## Places -/

def partAt? (expr : Expr) : List Nat → Option Expr
  | [] => some expr
  | index :: place => expr.children[index]?.bind fun part => part.partAt? place

def places : Expr → List (List Nat)
  | binary left _ right => [] :: (left.places.map (0 :: ·) ++ right.places.map (1 :: ·))
  | grouping inner _ => [] :: inner.places.map (0 :: ·)
  | literal _ => [[]]
  | unary _ operand => [] :: operand.places.map (0 :: ·)
  | reference _ => [[]]

/-- The parts at the places, in their order, are the nodes of the listing. -/
theorem map_partAt?_places (expr : Expr) :
    expr.places.map expr.partAt? = expr.preorder.map some := by
  induction expr with
  | binary left operator right ihLeft ihRight =>
      simp [places, preorder, partAt?, children, Function.comp_def, ihLeft, ihRight]
  | grouping inner paren ih => simp [places, preorder, partAt?, children, Function.comp_def, ih]
  | literal value => rfl
  | unary operator operand ih => simp [places, preorder, partAt?, children, Function.comp_def, ih]
  | reference name => rfl

/-- The places of a tree are those at which it has a part. -/
theorem mem_places_iff (expr : Expr) (place : List Nat) :
    place ∈ expr.places ↔ (expr.partAt? place).isSome = true := by
  induction expr generalizing place with
  | binary left operator right ihLeft ihRight =>
      rcases place with _ | ⟨_ | _ | index, place⟩ <;>
        simp [places, partAt?, children, ihLeft, ihRight]
  | grouping inner paren ih =>
      rcases place with _ | ⟨_ | index, place⟩ <;> simp [places, partAt?, children, ih]
  | literal value => rcases place with _ | ⟨index, place⟩ <;> simp [places, partAt?, children]
  | unary operator operand ih =>
      rcases place with _ | ⟨_ | index, place⟩ <;> simp [places, partAt?, children, ih]
  | reference name => rcases place with _ | ⟨index, place⟩ <;> simp [places, partAt?, children]

/-- Going down to the same part keeps places in order. -/
theorem pairwise_map_cons {places : List (List Nat)} (hplaces : places.Pairwise (· < ·))
    (index : Nat) : (places.map (index :: ·)).Pairwise (· < ·) := by
  rw [List.pairwise_map]
  exact hplaces.imp fun hless => List.cons_lt_cons_iff.mpr (.inr ⟨rfl, hless⟩)

/-- The places come in ascending order, so none comes twice. -/
theorem pairwise_places (expr : Expr) : expr.places.Pairwise (· < ·) := by
  have hnil : ∀ (index : Nat) (places : List (List Nat)),
      ∀ place ∈ places.map (index :: ·), [] < place := by
    intro index places place hmem
    obtain ⟨tail, -, rfl⟩ := List.mem_map.mp hmem
    exact List.nil_lt_cons index tail
  induction expr with
  | binary left operator right ihLeft ihRight =>
      refine List.pairwise_cons.mpr ⟨?_, List.pairwise_append.mpr
        ⟨pairwise_map_cons ihLeft 0, pairwise_map_cons ihRight 1, ?_⟩⟩
      · intro place hmem
        rcases List.mem_append.mp hmem with hleft | hright
        · exact hnil 0 left.places place hleft
        · exact hnil 1 right.places place hright
      · intro place hleft other hright
        obtain ⟨_, -, rfl⟩ := List.mem_map.mp hleft
        obtain ⟨_, -, rfl⟩ := List.mem_map.mp hright
        exact List.cons_lt_cons_iff.mpr (.inl Nat.zero_lt_one)
  | grouping inner paren ih =>
      exact List.pairwise_cons.mpr ⟨hnil 0 inner.places, pairwise_map_cons ih 0⟩
  | literal value => exact List.pairwise_singleton _ _
  | unary operator operand ih =>
      exact List.pairwise_cons.mpr ⟨hnil 0 operand.places, pairwise_map_cons ih 0⟩
  | reference name => exact List.pairwise_singleton _ _

/-! ## Turns of the loop -/

theorem walkStack_eq_nil_iff {stack : List Expr} : walkStack stack = [] ↔ stack = [] := by
  cases stack with
  | nil => simp [walkStack]
  | cons expr stack => simp [walkStack]

/-- A walk on its way: what it has listed, and the stack of what it still has to
visit, the next one at the end. -/
structure Tour where
  listed : List Expr
  stack : List Expr
  deriving DecidableEq

namespace Tour

/-- Nothing is listed, and the whole expression waits. -/
def start (expr : Expr) : Tour := ⟨[], [expr]⟩

/-- Takes the last expression off the stack, lists it, and pushes its parts, the
leftmost one last. -/
def turn (tour : Tour) : Tour :=
  match tour.stack.getLast? with
  | none => tour
  | some expr => ⟨tour.listed ++ [expr], tour.stack.dropLast ++ expr.children.reverse⟩

/-- What is listed and what the stack stands for. -/
def whole (tour : Tour) : List Expr :=
  tour.listed ++ walkStack tour.stack.reverse

theorem turn_nil (listed : List Expr) : turn ⟨listed, []⟩ = ⟨listed, []⟩ := rfl

theorem turn_concat (listed stack : List Expr) (expr : Expr) :
    turn ⟨listed, stack ++ [expr]⟩ = ⟨listed ++ [expr], stack ++ expr.children.reverse⟩ := by
  simp only [turn, List.getLast?_concat, List.dropLast_concat]

/-- A turn of the loop changes nothing about what is listed in the end. -/
theorem whole_turn (tour : Tour) : tour.turn.whole = tour.whole := by
  obtain ⟨listed, stack⟩ := tour
  rcases stack.eq_nil_or_concat' with rfl | ⟨stack, expr, rfl⟩
  · rw [turn_nil]
  · -- The end of the stack is the front of what is visited, so pushing the parts in
    -- reversed order puts them back into their own order.
    have hvisit : walkStack (stack ++ [expr]).reverse =
        expr :: walkStack (stack ++ expr.children.reverse).reverse := by
      rw [List.reverse_append, List.reverse_append, List.reverse_reverse, List.reverse_singleton,
        List.singleton_append, walkStack]
    rw [turn_concat, whole, whole, hvisit, List.append_assoc, List.singleton_append]

/-- A turn of the loop lists one more node, as long as there is one. -/
theorem length_listed_turn (tour : Tour) :
    tour.turn.listed.length = min (tour.listed.length + 1) tour.whole.length := by
  obtain ⟨listed, stack⟩ := tour
  rcases stack.eq_nil_or_concat' with rfl | ⟨stack, expr, rfl⟩
  · simp [turn_nil, whole, walkStack]
  · rw [← whole_turn, turn_concat]
    simp [whole]

theorem whole_iterate (tour : Tour) (turns : Nat) : (turn^[turns] tour).whole = tour.whole := by
  induction turns generalizing tour with
  | zero => rfl
  | succ turns ih => rw [Function.iterate_succ_apply, ih, whole_turn]

theorem length_listed_iterate (expr : Expr) (turns : Nat) :
    (turn^[turns] (start expr)).listed.length = min turns (start expr).whole.length := by
  induction turns with
  | zero => rw [Nat.zero_min]; rfl
  | succ turns ih =>
      rw [Function.iterate_succ_apply', length_listed_turn, ih, whole_iterate]
      omega

theorem whole_start (expr : Expr) : (start expr).whole = expr.preorder := by
  rw [← walk_eq_preorder]
  rfl

/-- After some turns that many entries of the listing are there. -/
theorem listed_iterate (expr : Expr) (turns : Nat) :
    (turn^[turns] (start expr)).listed = expr.preorder.take turns := by
  have hwhole := whole_iterate (start expr) turns
  have hlength := length_listed_iterate expr turns
  rw [whole_start] at hwhole hlength
  have hfront : (turn^[turns] (start expr)).listed <+: expr.preorder :=
    ⟨walkStack (turn^[turns] (start expr)).stack.reverse, hwhole⟩
  rw [List.prefix_iff_eq_take.mp hfront, hlength, ← List.take_eq_take_min]

/-- The stack is empty when every entry is there, and not before. -/
theorem stack_iterate_eq_nil_iff (expr : Expr) (turns : Nat) :
    (turn^[turns] (start expr)).stack = [] ↔ expr.preorder.length ≤ turns := by
  have hwhole := whole_iterate (start expr) turns
  rw [whole_start, whole, listed_iterate] at hwhole
  have hrest : walkStack (turn^[turns] (start expr)).stack.reverse = expr.preorder.drop turns :=
    List.append_cancel_left (hwhole.trans (List.take_append_drop turns expr.preorder).symm)
  rw [← List.drop_eq_nil_iff, ← hrest, walkStack_eq_nil_iff, List.reverse_eq_nil_iff]

end Tour

/-! ## The first token -/

/-- The token that an expression brings along: its operator, the bracket that was
read for it, or its name. -/
inductive Brings : Expr → Token → Prop
  | binary (left : Expr) (operator : Token) (right : Expr) :
      Brings (.binary left operator right) operator
  | grouping (inner : Expr) (paren : Token) : Brings (.grouping inner (some paren)) paren
  | unary (operator : Token) (operand : Expr) : Brings (.unary operator operand) operator
  | reference (name : Token) : Brings (.reference name) name

theorem ownToken?_eq_some_iff {expr : Expr} {token : Token} :
    expr.ownToken? = some token ↔ expr.Brings token := by
  constructor
  · intro hown
    cases expr with
    | binary left operator right =>
        cases hown
        exact .binary left token right
    | grouping inner paren =>
        cases hown
        exact .grouping inner token
    | literal value => cases hown
    | unary operator operand =>
        cases hown
        exact .unary token operand
    | reference name =>
        cases hown
        exact .reference token
  · rintro (_ | _ | _ | _) <;> rfl

theorem ownToken?_eq_none_iff {expr : Expr} :
    expr.ownToken? = none ↔ ∀ token, ¬ expr.Brings token := by
  simp only [Option.eq_none_iff_forall_ne_some, ne_eq, ownToken?_eq_some_iff]

/-- The first token is brought along by a node of the listing, and no node
before it brings one. -/
theorem firstToken?_eq_some_iff {expr : Expr} {token : Token} :
    expr.firstToken? = some token ↔ ∃ before part behind,
      expr.preorder = before ++ part :: behind ∧ part.Brings token ∧
        ∀ earlier ∈ before, ∀ other, ¬ earlier.Brings other := by
  rw [firstToken?_eq, walk_eq_preorder, List.findSome?_eq_some_iff]
  simp only [ownToken?_eq_some_iff, ownToken?_eq_none_iff]

/-- A tree without a first token has no token at all. -/
theorem firstToken?_eq_none_iff {expr : Expr} :
    expr.firstToken? = none ↔ ∀ part ∈ expr.preorder, ∀ token, ¬ part.Brings token := by
  rw [firstToken?_eq, walk_eq_preorder, List.findSome?_eq_none_iff]
  simp only [ownToken?_eq_none_iff]

/-- Turn by turn the loop lists the entries of the recursive listing, and it ends
when all of them are there; a walk is the whole listing.  Its entries are the
parts at the places of the tree, each place once and in the order of places.  The
first token is that of the first entry that brings one along, and it is missing
if no entry does. -/
theorem walk_visits_in_order (expr : Expr) :
    (∀ turns,
      (Tour.turn^[turns] (Tour.start expr)).listed = expr.preorder.take turns ∧
        ((Tour.turn^[turns] (Tour.start expr)).stack = [] ↔ expr.preorder.length ≤ turns)) ∧
      expr.walk = expr.preorder ∧
      (∃ places : List (List Nat),
        places.Pairwise (· < ·) ∧
          (∀ place, place ∈ places ↔ (expr.partAt? place).isSome = true) ∧
          places.map expr.partAt? = expr.walk.map some) ∧
      (∀ token, expr.firstToken? = some token ↔ ∃ before part behind,
        expr.walk = before ++ part :: behind ∧ part.Brings token ∧
          ∀ earlier ∈ before, ∀ other, ¬ earlier.Brings other) ∧
      (expr.firstToken? = none ↔ ∀ part ∈ expr.walk, ∀ token, ¬ part.Brings token) := by
  rw [walk_eq_preorder]
  exact ⟨fun turns => ⟨Tour.listed_iterate expr turns, Tour.stack_iterate_eq_nil_iff expr turns⟩,
    rfl, ⟨expr.places, expr.pairwise_places, expr.mem_places_iff, expr.map_partAt?_places⟩,
    fun _ => firstToken?_eq_some_iff, firstToken?_eq_none_iff⟩

end Expr

end Lumen
