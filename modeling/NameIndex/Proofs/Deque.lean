import NameIndex.Operation
import NameIndex.Proofs.Cursor
import NameIndex.Proofs.Scan

/-!
# Cursors as double-ended queues

A cursor knows two cookies and no count. All the same it is a double-ended queue of the entries from
where it starts: asked at either side in any order, it gives out what is popped from the list of
these entries in name order (`Deque`, `Threaded.deque`). What the list alone says about such pops is
shown first: nothing is lost or given out twice, and the two sides meet without crossing.
-/

namespace NameIndex

/-! ## Popping a list at both sides -/

namespace Side

variable {α : Type}

/-- What was given out at a side, in the order of the asking. -/
def given (side : Side) : List Side → List (Option α) → List α
  | asked :: sides, answer :: answers =>
    (if asked = side then answer.toList else []) ++ given side sides answers
  | _, _ => []

/-- An empty list has nothing to give out. -/
theorem take_nil (sides : List Side) :
    take sides ([] : List α) = (List.replicate sides.length none, []) := by
  induction sides with
  | nil => rfl
  | cons side sides ih =>
    have hend : side.end? ([] : List α) = none := side.end?_eq_none_iff.2 rfl
    have hothers : side.others ([] : List α) = [] := by cases side <;> rfl
    rw [take, hothers, hend, ih, List.length_cons, List.replicate_succ]

/-- Every asking leaves one item less. -/
theorem length_take (sides : List Side) (xs : List α) :
    (take sides xs).2.length = xs.length - sides.length := by
  induction sides generalizing xs with
  | nil => rfl
  | cons side sides ih =>
    rw [take, ih, length_others, List.length_cons]
    omega

/-- The item at the front and the others are the list. -/
theorem front_append (xs : List α) : (front.end? xs).toList ++ front.others xs = xs := by
  cases xs with
  | nil => rfl
  | cons x xs => rfl

/-- The others and the item at the back are the list. -/
theorem append_back (xs : List α) : back.others xs ++ (back.end? xs).toList = xs := by
  rcases List.eq_nil_or_concat xs with rfl | ⟨xs, x, rfl⟩
  · rfl
  · rw [List.concat_eq_append, others, end?, List.dropLast_concat, List.getLast?_concat]
    rfl

/-- The item at a side and the others are those of the list. -/
theorem end_append_others_perm (side : Side) (xs : List α) :
    ((side.end? xs).toList ++ side.others xs).Perm xs := by
  cases side with
  | front => rw [front_append]
  | back =>
    have hcomm : ((back.end? xs).toList ++ back.others xs).Perm
        (back.others xs ++ (back.end? xs).toList) := List.perm_append_comm
    rwa [append_back] at hcomm

/-- What was given out and what is left are the items of the list. -/
theorem take_perm (sides : List Side) (xs : List α) :
    ((take sides xs).1.filterMap id ++ (take sides xs).2).Perm xs := by
  induction sides generalizing xs with
  | nil => rfl
  | cons side sides ih =>
    have hstep : (take (side :: sides) xs).1.filterMap id =
        (side.end? xs).toList ++ (take sides (side.others xs)).1.filterMap id := by
      rw [take, List.filterMap_cons, id_eq]
      cases side.end? xs <;> rfl
    rw [hstep, List.append_assoc]
    exact ((ih (side.others xs)).append_left _).trans (side.end_append_others_perm xs)

/-- As many items are given out as are asked for, until there are none. -/
theorem length_given (sides : List Side) (xs : List α) :
    ((take sides xs).1.filterMap id).length = min sides.length xs.length := by
  have hlength := (take_perm sides xs).length_eq
  rw [List.length_append, length_take] at hlength
  omega

/-- Distinct items are given out once. -/
theorem given_nodup (sides : List Side) {xs : List α} (h : xs.Nodup) :
    ((take sides xs).1.filterMap id).Nodup :=
  (List.nodup_append.1 ((take_perm sides xs).nodup_iff.2 h)).1

/-- What was given out at the front, what is left, and what was given out at the back in reverse
make up the list. -/
theorem given_append (sides : List Side) (xs : List α) :
    given front sides (take sides xs).1 ++ (take sides xs).2 ++
      (given back sides (take sides xs).1).reverse = xs := by
  -- By induction on the sides asked, which all but the first ask the other items.
  induction sides generalizing xs with
  | nil => exact List.append_nil xs
  | cons side sides ih =>
    have hrest := ih (side.others xs)
    rw [take]
    dsimp only [given]
    cases side with
    | front =>
      rw [if_pos rfl, if_neg (by decide), List.nil_append, List.append_assoc, List.append_assoc,
        ← List.append_assoc (given front _ _), hrest]
      exact front_append xs
    | back =>
      have hone : (back.end? xs).toList.reverse = (back.end? xs).toList := by
        cases back.end? xs <;> rfl
      rw [if_pos rfl, if_neg (by decide), List.nil_append, List.reverse_append,
        ← List.append_assoc, hrest, hone]
      exact append_back xs

end Side

/-! ## Cursors -/

namespace Index

variable {G V : Type} {ix : Index G V} {ns pre post : List (Node V)}

/-- The entries in name order, or those of names not before a name. -/
def inOrderFrom (ix : Index G V) : Option Name → List (Entry V)
  | none => ix.inOrder
  | some name => ix.inOrder.filter fun e => ¬ e.name < name

/-- The cursor gives out the entries of a list as a double-ended queue does. -/
structure Deque (ix : Index G V) (cur : Cursor) (es : List (Entry V)) : Prop where
  /-- The answers at any sides in turn are those of popping the list there. -/
  answers : ∀ sides, ∃ cur', ix.popEach sides cur = .ok ((Side.take sides es).1, cur')
  /-- No entry is given out twice. -/
  once : ∀ sides answers cur', ix.popEach sides cur = .ok (answers, cur') →
    (answers.filterMap id).Nodup
  /-- The sides do not cross: what the front gave out begins the list, and what the back gave out
  ends it. -/
  apart : ∀ sides answers cur', ix.popEach sides cur = .ok (answers, cur') →
    ∃ left, es = Side.given .front sides answers ++ left ++ (Side.given .back sides answers).reverse
  /-- Each asking gives out an entry until all entries of the list have been given out. -/
  answered : ∀ sides answers cur', ix.popEach sides cur = .ok (answers, cur') →
    (answers.filterMap id).length = min sides.length es.length
  /-- After as many askings as there are entries nothing is given out any more, at either side. -/
  usedUp : ∀ sides answers cur', ix.popEach sides cur = .ok (answers, cur') →
    es.length ≤ sides.length →
    ∀ more, ∃ cur'', ix.popEach more cur' = .ok (List.replicate more.length none, cur'')
  /-- The front alone gives out the list. -/
  forwards : ix.popAll .front cur = .ok es
  /-- The back alone gives out the list in reverse. -/
  backwards : ix.popAll .back cur = .ok es.reverse

/-- A cursor of a threaded index starts at some nodes in a row up to the last. -/
theorem Threaded.exists_cursorAt (h : ix.Threaded ns) (start : Option Name) :
    ∃ pre post, ns = pre ++ post ∧ ix.cursorAt start = .ok (.over post) ∧
      ix.inOrderFrom start = weave [] (lastOf .null pre) post := by
  cases start with
  | none => exact ⟨[], ns, rfl, congrArg Except.ok h.cursor_eq, h.inOrder_eq⟩
  | some name =>
    obtain ⟨pre, post, rfl, hpre, hpost⟩ := exists_split_at h.sorted name
    refine ⟨pre, post, rfl, h.cursorFrom_eq hpre hpost, ?_⟩
    rw [inOrderFrom, h.inOrder_eq, filter_not_before hpre hpost]

/-- A cursor for no nodes gives out nothing. -/
theorem Threaded.popEach_nil (h : ix.Threaded ns) (sides : List Side) :
    ix.popEach sides (.over ([] : List (Node V))) =
      .ok (List.replicate sides.length none, .over ([] : List (Node V))) := by
  have hrow : ix.Threaded (ns ++ [] ++ []) := by rwa [List.append_nil, List.append_nil]
  rw [hrow.popEach_eq, weave, Side.take_nil, Side.take_nil]

/-- A cursor for the last nodes in a row is a double-ended queue of their entries. -/
theorem Threaded.deque (h : ix.Threaded (pre ++ post)) :
    ix.Deque (.over post) (weave [] (lastOf .null pre) post) := by
  have hrow : ix.Threaded (pre ++ post ++ []) := by rwa [List.append_nil]
  have hpop := hrow.popEach_eq
  -- What a cursor gives out is therefore settled by the list.
  have hgiven : ∀ {sides answers cur'}, ix.popEach sides (.over post) = .ok (answers, cur') →
      answers = (Side.take sides (weave [] (lastOf .null pre) post)).1 ∧
        cur' = .over (Side.take sides post).2 := by
    intro sides answers cur' heq
    rw [hpop, Except.ok.injEq, Prod.mk.injEq] at heq
    exact ⟨heq.1.symm, heq.2.symm⟩
  have hnodup : (weave [] (lastOf .null pre) post).Nodup := by
    have hall := h.weave_nodup
    rw [weave_append, List.append_nil] at hall
    exact (List.nodup_append.1 hall).2.1
  exact {
    answers := fun sides => ⟨_, hpop sides⟩
    once := by
      intro sides answers cur' heq
      obtain ⟨rfl, -⟩ := hgiven heq
      exact Side.given_nodup sides hnodup
    apart := by
      intro sides answers cur' heq
      obtain ⟨rfl, -⟩ := hgiven heq
      exact ⟨_, (Side.given_append sides _).symm⟩
    answered := by
      intro sides answers cur' heq
      obtain ⟨rfl, -⟩ := hgiven heq
      exact Side.length_given sides _
    usedUp := by
      intro sides answers cur' heq hlength more
      obtain ⟨-, rfl⟩ := hgiven heq
      have hleft : (Side.take sides post).2 = [] := by
        rw [← List.length_eq_zero_iff, Side.length_take]
        rw [length_weave] at hlength
        omega
      rw [hleft]
      exact ⟨_, hrow.popEach_nil more⟩
    forwards := h.popAll_eq .front
    backwards := h.popAll_eq .back }

/-- A cursor of an index that passes its check, for all entries or for those not before a name, is a
double-ended queue of these entries in name order. -/
theorem cursorAt_deque {n : Nat} (hcheck : ix.check = .ok n) (start : Option Name) :
    ∃ cur, ix.cursorAt start = .ok cur ∧ ix.Deque cur (ix.inOrderFrom start) := by
  obtain ⟨ns, h⟩ := exists_threaded_of_check hcheck
  obtain ⟨pre, post, rfl, hcursor, hentries⟩ := h.exists_cursorAt start
  refine ⟨_, hcursor, ?_⟩
  rw [hentries]
  exact h.deque

/-- Of the three entries two are not before the name. Asked at both sides, the cursor gives them out
and then nothing. -/
theorem cursorAt_deque_trio :
    trio.check = .ok 3 ∧ ∃ cur cur' answers, trio.cursorAt (some [97, 0]) = .ok cur ∧
      trio.popEach [.back, .front, .back] cur = .ok (answers, cur') ∧
      answers.map (Option.map Entry.cookie) = [some ⟨1⟩, some ⟨3⟩, none] := by
  have hcheck : trio.check = .ok 3 := by rfl
  obtain ⟨cur, hcursor, hdeque⟩ := cursorAt_deque hcheck (some [97, 0])
  obtain ⟨cur', hanswers⟩ := hdeque.answers [.back, .front, .back]
  exact ⟨hcheck, cur, cur', _, hcursor, hanswers, by decide⟩

end Index

end NameIndex
