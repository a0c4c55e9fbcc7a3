import NameIndex.Level.ChaCha
import NameIndex.Proofs.Handles
import NameIndex.Proofs.Removals

/-!
# Which heights are drawn

Every enrolment draws one height, whether it is refused or not, and nothing else draws. So the
heights are those that the seed gives one after another, and which of them an entry gets depends on
the number of enrolments before its own alone (`Draws`). An operation draws in this way
(`Keeps.exists_apply_draws`), and draws follow each other (`Draws.trans`), so a run does as well
(`Keeps.exists_run_draws`). As no cookie is given out twice, no entry ever has another height than
the one drawn for it.
-/

namespace NameIndex

variable {G V : Type}

namespace LevelSource

variable [LevelSource G]

/-! ## One height -/

/-- The next `count` numbers, and the state after them. -/
def draws : Nat → G → List UInt64 × G
  | 0, g => ([], g)
  | count + 1, g =>
    let (x, g) := draw g
    let (xs, g) := draws count g
    (x :: xs, g)

/-- How many of the next `count` numbers come before any that reaches `climbBound`. -/
def leading (count : Nat) (g : G) : Nat :=
  ((draws count g).1.takeWhile fun x => x.toNat < climbBound).length

theorem leading_succ (count : Nat) (g : G) :
    leading (count + 1) g =
      if (draw g).1.toNat < climbBound then leading count (draw g).2 + 1 else 0 := by
  rw [leading, draws]
  dsimp only
  split_ifs with hx
  · rw [List.takeWhile_cons_of_pos (by simpa using hx)]
    rfl
  · rw [List.takeWhile_cons_of_neg (by simpa using hx)]
    rfl

theorem climb_succ (room : Nat) (g : G) :
    climb (room + 1) g =
      if (draw g).1.toNat < climbBound then
        ((climb room (draw g).2).1 + 1, (climb room (draw g).2).2)
      else (0, (draw g).2) :=
  rfl

/-- A climb passes the leading numbers, as far as there is room. -/
theorem climb_fst {room count : Nat} (h : room ≤ count) (g : G) :
    (climb room g).1 = min room (leading count g) := by
  induction room generalizing count g with
  | zero => exact (Nat.zero_min _).symm
  | succ room ih =>
    obtain ⟨count, rfl⟩ : ∃ k, count = k + 1 := ⟨count - 1, by omega⟩
    rw [climb_succ, leading_succ]
    split_ifs
    · have hrest := ih (Nat.le_of_succ_le_succ h) (draw g).2
      dsimp only
      omega
    · exact (Nat.min_zero _).symm

/-- A climb draws the numbers that it passes and the one that ends it, unless it ends for want of
room. -/
theorem climb_snd (room : Nat) (g : G) :
    (climb room g).2 =
      (draws (if (climb room g).1 = room then room else (climb room g).1 + 1) g).2 := by
  induction room generalizing g with
  | zero => rfl
  | succ room ih =>
    rw [climb_succ]
    by_cases hx : (draw g).1.toNat < climbBound
    · have hrest := ih (draw g).2
      rw [if_pos hx]
      by_cases hroom : (climb room (draw g).2).1 = room
      · rw [if_pos hroom] at hrest
        rw [if_pos (congrArg (· + 1) hroom)]
        exact hrest
      · rw [if_neg hroom] at hrest
        rw [if_neg fun h => hroom (Nat.succ.inj h)]
        exact hrest
    · rw [if_neg hx, if_neg (Nat.succ_ne_zero room).symm]
      rfl

/-- A height is one more than the leading numbers, but `maxLevels` at most. It draws as many numbers
as it is high, the last of which ends the climb; a climb to `maxLevels` ends without such a
number. -/
theorem drawHeight_eq {count : Nat} (h : maxLevels - 1 ≤ count) (g : G) :
    (drawHeight g).1 = min maxLevels (1 + leading count g) ∧
      (drawHeight g).2 = (draws
        (if (drawHeight g).1 = maxLevels then maxLevels - 1 else (drawHeight g).1) g).2 := by
  have hfst := climb_fst h g
  have hsnd := climb_snd (maxLevels - 1) g
  have hheight : (drawHeight g).1 = (climb (maxLevels - 1) g).1 + 1 := rfl
  refine ⟨?_, ?_⟩
  · rw [hheight, hfst, maxLevels]
    omega
  · have hiff : (drawHeight g).1 = maxLevels ↔ (climb (maxLevels - 1) g).1 = maxLevels - 1 := by
      rw [hheight, maxLevels]
      omega
    simp only [hiff]
    exact hsnd

/-! ## One height after another -/

theorem length_drawHeights (count : Nat) (g : G) : (drawHeights count g).1.length = count := by
  induction count generalizing g with
  | zero => rfl
  | succ count ih => exact congrArg (· + 1) (ih (drawHeight g).2)

/-- Drawing some heights and then some more. -/
theorem drawHeights_add (m n : Nat) (g : G) :
    drawHeights (m + n) g =
      ((drawHeights m g).1 ++ (drawHeights n (drawHeights m g).2).1,
        (drawHeights n (drawHeights m g).2).2) := by
  induction m generalizing g with
  | zero => rw [Nat.zero_add]; rfl
  | succ m ih =>
    rw [Nat.succ_add, drawHeights, drawHeights]
    dsimp only
    rw [ih (drawHeight g).2]
    rfl

end LevelSource

/-! ## The outcomes of enrolments -/

/-- Whether an operation is an enrolment. -/
def Operation.isEnroll : Operation V → Bool
  | .enroll _ => true
  | _ => false

/-- The number of enrolments among operations. -/
def enrolments (ops : List (Operation V)) : Nat := ops.countP Operation.isEnroll

/-- How an enrolment went, if the answer is one to an enrolment: the cookie given out, or none. -/
def Answer.outcome : Answer V → Option (Option Cookie)
  | .enrolled c => some (some c)
  | .refused _ => some none
  | _ => none

/-- How the enrolments went that are among the operations answered. -/
def outcomes (answers : List (Answer V)) : List (Option Cookie) := answers.filterMap Answer.outcome

/-- Each cookie given out, with the height drawn for it: that of the same place among those that
are drawn one after another. -/
def heightsGiven [LevelSource G] (outs : List (Option Cookie)) (g : G) : List (Cookie × Nat) :=
  (outs.zip (LevelSource.drawHeights outs.length g).1).filterMap fun (out, height) =>
    out.map fun c => (c, height)

/-- The greatest of the heights given, or 0 if there is none. -/
def tallest (given : List (Cookie × Nat)) : Nat := (given.map Prod.snd).foldr max 0

theorem tallest_append (given given' : List (Cookie × Nat)) :
    tallest (given ++ given') = max (tallest given) (tallest given') := by
  induction given with
  | nil => exact (Nat.zero_max _).symm
  | cons p given ih =>
    rw [tallest] at ih
    rw [tallest, tallest, List.cons_append, List.map_cons, List.map_cons, List.foldr_cons,
      List.foldr_cons, ih, Nat.max_assoc]
    rfl

theorem outcomes_cons (answer : Answer V) (answers : List (Answer V)) :
    outcomes (answer :: answers) = answer.outcome.toList ++ outcomes answers := by
  rw [outcomes, List.filterMap_cons]
  cases answer.outcome <;> rfl

theorem heightsGiven_append [LevelSource G] (outs outs' : List (Option Cookie)) (g : G) :
    heightsGiven (outs ++ outs') g =
      heightsGiven outs g ++
        heightsGiven outs' (LevelSource.drawHeights outs.length g).2 := by
  have hlen := LevelSource.length_drawHeights outs.length g
  rw [heightsGiven, List.length_append, LevelSource.drawHeights_add, List.zip_append hlen.symm,
    List.filterMap_append]
  rfl

/-- Every cookie given out has a height. -/
theorem map_fst_heightsGiven [LevelSource G] (outs : List (Option Cookie)) (g : G) :
    (heightsGiven outs g).map Prod.fst = outs.filterMap id := by
  have hlen := LevelSource.length_drawHeights outs.length g
  have hfst : (outs.zip (LevelSource.drawHeights outs.length g).1).map Prod.fst = outs :=
    List.map_fst_zip (Nat.le_of_eq hlen.symm)
  conv_rhs => rw [← hfst, List.filterMap_map]
  rw [heightsGiven, List.map_filterMap]
  refine List.filterMap_congr fun p _ => ?_
  rw [Option.map_map]
  exact Option.map_id'

/-- The outcomes tell the cookies that the answers give out. -/
theorem filterMap_outcomes (answers : List (Answer V)) :
    (outcomes answers).filterMap id = answers.filterMap Answer.granted := by
  rw [outcomes, List.filterMap_filterMap]
  refine List.filterMap_congr fun answer _ => ?_
  cases answer <;> rfl

/-- Cookies that are spent once are given out once. -/
theorem Spends.outcomes_nodup {last : Nat} {answers : List (Answer V)} (h : Spends last answers) :
    ((outcomes answers).filterMap id).Nodup := by
  rw [filterMap_outcomes]
  exact h.ascending.imp fun hlt heq => Nat.ne_of_lt hlt (congrArg Cookie.val heq)

/-- An answer tells an outcome when the operation is an enrolment. -/
theorem Ledger.isSome_outcome (l : Ledger V) (op : Operation V) :
    (l.apply op).1.outcome.isSome = op.isEnroll := by
  cases op with
  | enroll e =>
    rw [apply]
    rcases l.enroll_cases e with h | ⟨c, slot, hc, h⟩ | ⟨c, slots, hc, -, h⟩
    all_goals
      rw [h]
      rfl
  | _ => rfl

theorem Ledger.map_isSome_outcome (l : Ledger V) (ops : List (Operation V)) :
    ((l.run ops).1.map fun answer => answer.outcome.isSome) = ops.map Operation.isEnroll := by
  induction ops generalizing l with
  | nil => rfl
  | cons op ops ih => rw [run, List.map_cons, List.map_cons, isSome_outcome, ih]

/-- If the enrolments have outcomes, and nothing else does, there is one for each of them. -/
theorem length_outcomes {answers : List (Answer V)} {ops : List (Operation V)}
    (h : (answers.map fun answer => answer.outcome.isSome) = ops.map Operation.isEnroll) :
    (outcomes answers).length = enrolments ops := by
  calc (outcomes answers).length = answers.countP (fun answer => answer.outcome.isSome) :=
        List.length_filterMap_eq_countP ..
    _ = (answers.map fun answer => answer.outcome.isSome).countP id := by
        rw [List.countP_map]
        rfl
    _ = (ops.map Operation.isEnroll).countP id := by rw [h]
    _ = enrolments ops := List.countP_map

namespace Index

/-- The height of the entry of a cookie. -/
def heightOf (ix : Index G V) (c : Cookie) : Option Nat := (ix.get? c).map Entry.height

variable {ix ix₁ ix₂ ix' : Index G V} {ns ns' : List (Node V)} {c : Cookie} {height : Nat}
  {outs outs₁ outs₂ : List (Option Cookie)} {e : Entry V} {op : Operation V}
  {ops : List (Operation V)} {l : Ledger V}

/-- The height under a cookie is that of its node. -/
theorem Threaded.heightOf_eq_some_iff (h : ix.Threaded ns) :
    ix.heightOf c = some height ↔ ∃ n ∈ ns, n.cookie = c ∧ n.height = height := by
  have hnode : ix.heightOf c = ((ix.get? c).map Entry.node).map fun n => n.height := by
    rw [Option.map_map]
    rfl
  rw [hnode, Option.map_eq_some_iff]
  simp only [h.map_node_get?_eq_some_iff, and_assoc]

/-- Reading leaves the index as it is. -/
theorem eq_of_read {answer : Except Fault (Answer V)} {a : Answer V}
    (h : ix.read answer = .ok (a, ix')) : ix' = ix := by
  cases answer with
  | error fault => cases h
  | ok b =>
    cases h
    rfl

variable [LevelSource G]

/-- What enrolments of these outcomes, and any other operations, have done to the levels when `ix`
has become `ix'`. -/
structure Draws (ix : Index G V) (outs : List (Option Cookie)) (ix' : Index G V) : Prop where
  /-- Each of them has drawn one height. -/
  source : ix'.source = (LevelSource.drawHeights outs.length ix.source).2
  /-- There are levels enough for the heights given, and no more than that. -/
  levels : ix'.activeLevels = max ix.activeLevels (tallest (heightsGiven outs ix.source))
  /-- Every entry has the height that it had, or the one given to it. -/
  heights : ∀ c height, ix'.heightOf c = some height →
    ix.heightOf c = some height ∨ (c, height) ∈ heightsGiven outs ix.source

namespace Draws

theorem refl (ix : Index G V) : ix.Draws [] ix where
  source := rfl
  levels := (Nat.max_zero _).symm
  heights := fun _ _ h => .inl h

/-- The draws of one stretch and then of another. -/
theorem trans (h₁ : ix.Draws outs₁ ix₁) (h₂ : ix₁.Draws outs₂ ix₂) :
    ix.Draws (outs₁ ++ outs₂) ix₂ := by
  have hgiven := heightsGiven_append outs₁ outs₂ ix.source
  rw [← h₁.source] at hgiven
  constructor
  · rw [h₂.source, h₁.source, List.length_append, LevelSource.drawHeights_add]
  · rw [hgiven, tallest_append, ← Nat.max_assoc, ← h₁.levels]
    exact h₂.levels
  · intro c height hc
    rw [hgiven, List.mem_append, ← or_assoc]
    exact (h₂.heights c height hc).imp_left (h₁.heights c height)

/-- Where nothing is drawn and no node is new. -/
theorem of_sameFrame (h : ix.Threaded ns) (h' : ix'.Threaded ns') (hframe : ix.SameFrame ix')
    (hold : ∀ n' ∈ ns', ∃ n ∈ ns, n.cookie = n'.cookie ∧ n.height = n'.height) :
    ix.Draws [] ix' where
  source := hframe.source
  levels := hframe.levels.trans (Nat.max_zero _).symm
  heights := by
    intro c height hc
    obtain ⟨n', hn', rfl, rfl⟩ := h'.heightOf_eq_some_iff.1 hc
    exact .inl (h.heightOf_eq_some_iff.2 (hold n' hn'))

/-- A height is drawn and given to no entry. -/
theorem refused (hsource : ix'.source = (LevelSource.drawHeight ix.source).2)
    (hlevels : ix'.activeLevels = ix.activeLevels)
    (hheights : ∀ c, ix'.heightOf c = ix.heightOf c) : ix.Draws [none] ix' where
  source := hsource
  levels := hlevels.trans (Nat.max_zero _).symm
  heights := fun c _ hc => .inl ((hheights c).symm.trans hc)

/-- A height is drawn and given to a new node. -/
theorem given {pre post : List (Node V)} {n : Node V} (h : ix.Threaded (pre ++ post))
    (h' : ix'.Threaded (pre ++ n :: post))
    (hheight : n.height = (LevelSource.drawHeight ix.source).1)
    (hsource : ix'.source = (LevelSource.drawHeight ix.source).2)
    (hlevels : ix'.activeLevels = max ix.activeLevels n.height) :
    ix.Draws [some n.cookie] ix' := by
  have hgiven : heightsGiven [some n.cookie] ix.source = [(n.cookie, n.height)] := by
    rw [hheight]
    rfl
  constructor
  · exact hsource
  · rw [hgiven, show tallest [(n.cookie, n.height)] = n.height from Nat.max_zero _]
    exact hlevels
  · intro c height hc
    obtain ⟨m, hm, rfl, rfl⟩ := h'.heightOf_eq_some_iff.1 hc
    rw [hgiven, List.mem_singleton]
    rcases List.mem_append.1 hm with hm | hm
    · exact .inl (h.heightOf_eq_some_iff.2 ⟨m, List.mem_append_left _ hm, rfl, rfl⟩)
    rcases List.mem_cons.1 hm with rfl | hm
    · exact .inr rfl
    · exact .inl (h.heightOf_eq_some_iff.2 ⟨m, List.mem_append_right _ hm, rfl, rfl⟩)

/-- No level goes out of use. -/
theorem le_levels (h : ix.Draws outs ix') : ix.activeLevels ≤ ix'.activeLevels := by
  rw [h.levels]
  exact Nat.le_max_left _ _

/-- An entry keeps its height unless its cookie is given out anew. -/
theorem heightOf_eq (h : ix.Draws outs ix') (hc : c ∉ outs.filterMap id) {height' : Nat}
    (hheight : ix.heightOf c = some height) (hheight' : ix'.heightOf c = some height') :
    height' = height := by
  rcases h.heights c height' hheight' with hold | hgiven
  · exact Option.some.inj (hold.symm.trans hheight)
  · rw [← map_fst_heightsGiven outs ix.source] at hc
    exact absurd (List.mem_map_of_mem hgiven) hc

end Draws

/-! ## One step -/

/-- An enrolment draws one height and gives it to the entry, if it does not refuse it. -/
theorem Layout.exists_enroll_draws (h : ix.Layout ns) (he : e.isLinked = false)
    (hmeans : ix.Affords (.enroll e)) :
    ∃ result ix', ix.enroll e = .ok (result, ix') ∧ ix.Draws [result.toOption] ix' ∧
      ∀ c, result = .ok c → ix'.heightOf c = some (LevelSource.drawHeight ix.source).1 := by
  rcases h.enroll_cases he hmeans with ⟨refused, last, -, henroll⟩ | ⟨hname, hmeans, hroom⟩
  · refine ⟨_, _, henroll, ?_, fun c hc => nomatch hc⟩
    exact .refused rfl rfl fun _ => rfl
  · obtain ⟨pre, post, c, ix', rfl, -, -, henroll, h', -, -, -, hlevels, -, hsource⟩ :=
      h.enroll_fresh he hname hmeans hroom
    refine ⟨_, ix', henroll, ?_, fun d hd => ?_⟩
    · exact .given h.toThreaded h'.toThreaded rfl hsource hlevels
    · cases hd
      exact h'.heightOf_eq_some_iff.2
        ⟨_, List.mem_append_right pre List.mem_cons_self, rfl, rfl⟩

/-- A removal draws nothing. -/
theorem Layout.remove_draws (h : ix.Layout ns) {result : Option (Entry V)}
    (hremove : ix.remove c = .ok (result, ix')) : ix.Draws [] ix' := by
  obtain ⟨ix₁, hremove₁, h₁, hframe⟩ := h.toThreaded.exists_remove c
  rw [hremove] at hremove₁
  cases hremove₁
  exact .of_sameFrame h.toThreaded h₁ hframe fun n hn => ⟨n, (List.mem_filter.1 hn).1, rfl, rfl⟩

/-- Draining draws nothing. -/
theorem Layout.drain_draws (h : ix.Layout ns) {es : List (Entry V)}
    (hdrain : ix.drain = .ok (es, ix')) : ix.Draws [] ix' := by
  obtain ⟨ix₁, hdrain₁, h₁, hframe⟩ := h.drain_eq
  rw [hdrain] at hdrain₁
  cases hdrain₁
  exact .of_sameFrame h.toThreaded h₁.toThreaded hframe fun n hn => absurd hn List.not_mem_nil

/-- Changing a value draws nothing. -/
theorem Layout.setValue_draws (h : ix.Layout ns) (c : Cookie) (v : V) :
    ix.Draws [] (ix.setValue c v).2 := by
  rcases node_cases (fun n => n.cookie = c) ns with hnone | ⟨pre, n, post, rfl, rfl⟩
  · rw [h.setValue_none hnone v]
    exact .refl ix
  · obtain ⟨table, hset, hcap, hlayout⟩ := h.setValue_some v
    rw [hset]
    refine .of_sameFrame h.toThreaded hlayout.toThreaded ⟨hcap, rfl, rfl, rfl, rfl⟩ fun m hm => ?_
    rcases List.mem_append.1 hm with hm | hm
    · exact ⟨m, List.mem_append_left _ hm, rfl, rfl⟩
    rcases List.mem_cons.1 hm with rfl | hm
    · exact ⟨n, by simp, rfl, rfl⟩
    · exact ⟨m, by simp [hm], rfl, rfl⟩

/-- Every operation draws a height if it is an enrolment, and none otherwise. -/
theorem Keeps.exists_apply_draws (h : ix.Keeps ns l) (hop : op.Unlinked) (hmeans : ix.Affords op) :
    ∃ ix' ns', ix.apply op = .ok ((l.apply op).1, ix') ∧ ix'.Keeps ns' (l.apply op).2 ∧
      ix.Draws (l.apply op).1.outcome.toList ix' := by
  obtain ⟨ix', ns', happly, h'⟩ := h.exists_apply hop hmeans
  refine ⟨ix', ns', happly, h', ?_⟩
  cases op with
  | enroll e =>
    obtain ⟨result, ix₁, henroll, hdraws, -⟩ := h.layout.exists_enroll_draws hop hmeans
    rw [apply, henroll] at happly
    cases result with
    | error refused =>
      obtain ⟨hanswer, rfl⟩ := Prod.mk.inj (Except.ok.inj happly)
      rwa [← hanswer]
    | ok c =>
      obtain ⟨hanswer, rfl⟩ := Prod.mk.inj (Except.ok.inj happly)
      rwa [← hanswer]
  | remove c =>
    obtain ⟨⟨result, ix₁⟩, hremove, hdone⟩ := bind_eq_ok_iff.1 happly
    cases hdone
    exact h.layout.remove_draws hremove
  | drain =>
    obtain ⟨⟨es, ix₁⟩, hdrain, hdone⟩ := bind_eq_ok_iff.1 happly
    cases hdone
    exact h.layout.drain_draws hdrain
  | set c v =>
    obtain rfl : (ix.setValue c v).2 = ix' := congrArg Prod.snd (Except.ok.inj happly)
    exact h.layout.setValue_draws c v
  | get c =>
    obtain rfl : ix = ix' := congrArg Prod.snd (Except.ok.inj happly)
    exact .refl ix
  | _ =>
    obtain rfl : ix' = ix := eq_of_read happly
    exact .refl ix'

/-! ## Runs -/

/-- Every run draws a height for each of its enrolments. -/
theorem Keeps.exists_run_draws (h : ix.Keeps ns l) (hops : ∀ op ∈ ops, op.Unlinked)
    (hmeans : ix.AffordsAll ops) :
    ∃ ix' ns', ix.run ops = .ok ((l.run ops).1, ix') ∧ ix'.Keeps ns' (l.run ops).2 ∧
      ix.Draws (outcomes (l.run ops).1) ix' := by
  -- By induction on the operations, whose draws follow each other.
  induction ops generalizing ix ns l with
  | nil => exact ⟨ix, ns, rfl, h, .refl ix⟩
  | cons op ops ih =>
    rw [List.forall_mem_cons] at hops
    obtain ⟨ix₁, ns₁, happly, h₁, hdraws₁⟩ := h.exists_apply_draws hops.1 hmeans.1
    obtain ⟨ix₂, ns₂, hrun, h₂, hdraws₂⟩ := ih h₁ hops.2 (hmeans.2 _ _ happly)
    refine ⟨ix₂, ns₂, ?_, h₂, ?_⟩
    · rw [run, happly, ok_bind]
      dsimp only
      rw [hrun]
      rfl
    · rw [Ledger.run, outcomes_cons]
      exact hdraws₁.trans hdraws₂

/-- What is known of the levels after enrolments of these outcomes, if the first height was drawn
from `g`. -/
structure Leveled (ix : Index G V) (g : G) (outs : List (Option Cookie)) : Prop where
  /-- Each of them has drawn one height. -/
  source : ix.source = (LevelSource.drawHeights outs.length g).2
  /-- As many levels are in use as the tallest entry so far has had. -/
  levels : ix.activeLevels = tallest (heightsGiven outs g)
  /-- Every entry has the height given to it. -/
  heights : ∀ e ∈ ix.table.live, (e.cookie, e.height) ∈ heightsGiven outs g
  /-- No cookie is given out twice. -/
  cookies : ((heightsGiven outs g).map Prod.fst).Nodup

/-- An index that was new has the levels of its draws. -/
theorem Draws.leveled {config : Config} {entropy : UInt64} (hnew : ix.New config entropy)
    (h : ix.Draws outs ix') (hlayout : ix'.Layout ns) (hcookies : (outs.filterMap id).Nodup) :
    ix'.Leveled (config.seeded entropy) outs := by
  have hlevels : ix.activeLevels = 0 := congrArg List.length hnew.heads
  rw [← hnew.source]
  refine ⟨h.source, ?_, fun e he => ?_, ?_⟩
  · rw [h.levels, hlevels, Nat.zero_max]
  · have hnode := node_mem_of_mem_weave (hlayout.stores.mem_live_iff.1 he)
    rcases h.heights e.cookie e.height (hlayout.heightOf_eq_some_iff.2 ⟨_, hnode, rfl, rfl⟩) with
      hold | hgiven
    · obtain ⟨n, hn, -⟩ := hnew.layout.heightOf_eq_some_iff.1 hold
      exact absurd hn List.not_mem_nil
    · exact hgiven
  · rw [map_fst_heightsGiven]
    exact hcookies

/-- A height is one more than the numbers below `climbBound` that come first, `maxLevels` at most,
and takes as many numbers as it is high, or one less if it is `maxLevels`. In every run that a new
index affords each enrolment draws one such height, one after another from the seed on. An entry has
the height drawn for it as long as it is enrolled, and as many levels are in use as the tallest
entry so far has had; enrolments that are refused do not count. -/
theorem heights_exact {config : Config} {entropy : UInt64} {ix₀ : Index G V}
    (hcreate : create config entropy = .ok ix₀) (hops : ∀ op ∈ ops, op.Unlinked)
    (hmeans : ix₀.AffordsAll ops) :
    (∀ (g : G) (count : Nat), maxLevels - 1 ≤ count →
      (LevelSource.drawHeight g).1 = min maxLevels (1 + LevelSource.leading count g) ∧
        (LevelSource.drawHeight g).2 = (LevelSource.draws
          (if (LevelSource.drawHeight g).1 = maxLevels then maxLevels - 1
            else (LevelSource.drawHeight g).1) g).2) ∧
      ∃ answers ix, ix₀.run ops = .ok (answers, ix) ∧
        (answers.map fun answer => answer.outcome.isSome) = ops.map Operation.isEnroll ∧
        (outcomes answers).length = enrolments ops ∧
        ix.Leveled (config.seeded entropy) (outcomes answers) ∧
        (∀ e : Entry V, e.isLinked = false → ix.Affords (.enroll e) →
          ∃ result ix', ix.enroll e = .ok (result, ix') ∧ ix.Draws [result.toOption] ix' ∧
            ∀ c, result = .ok c → ix'.heightOf c = some (LevelSource.drawHeight ix.source).1) ∧
        ∀ ops' : List (Operation V), (∀ op ∈ ops', op.Unlinked) → ix.AffordsAll ops' →
          ∃ answers' ix', ix.run ops' = .ok (answers', ix') ∧ ix.activeLevels ≤ ix'.activeLevels ∧
            ∀ c height height', ix.heightOf c = some height → ix'.heightOf c = some height' →
              height' = height := by
  have hnew := new_of_create hcreate
  obtain ⟨ix, ns, hrun, h, hdraws⟩ := hnew.keeps.exists_run_draws hops hmeans
  have houtcomes := Ledger.map_isSome_outcome (.empty config.firstSlots config.mostSlots) ops
  have hspends := Ledger.run_spends (.empty config.firstSlots config.mostSlots) ops
  refine ⟨fun g count hcount => LevelSource.drawHeight_eq hcount g, _, ix, hrun, houtcomes,
    length_outcomes houtcomes, hdraws.leveled hnew h.layout hspends.outcomes_nodup,
    fun e he hmeans' => h.layout.exists_enroll_draws he hmeans', fun ops' hops' hmeans' => ?_⟩
  obtain ⟨ix', ns', hrun', -, hdraws'⟩ := h.exists_run_draws hops' hmeans'
  refine ⟨_, ix', hrun', hdraws'.le_levels, fun c height height' hc => hdraws'.heightOf_eq ?_ hc⟩
  -- The cookies given out since are all greater than that of an entry.
  obtain ⟨n, hn, rfl, -⟩ := h.layout.heightOf_eq_some_iff.1 hc
  have hissued := (h.layout.issued n hn).2
  rw [filterMap_outcomes]
  intro hmem
  have hfresh := (Ledger.run_spends _ ops').granted n.cookie hmem
  have hlast := h.last
  omega

/-- The tallest height is that of an entry that is refused, and no level comes of it. -/
theorem heights_exact_refused :
    ∃ ix₀ : Index ChaCha Nat, create ⟨2, 2, some 16⟩ 0 = .ok ix₀ ∧ ∃ answers ix, ix₀.run
        [.enroll ⟨[97], 7, .null, [], .null⟩, .enroll ⟨[97], 8, .null, [], .null⟩,
          .enroll ⟨[98], 9, .null, [], .null⟩] = .ok (answers, ix) ∧
      outcomes answers = [some ⟨1⟩, none, some ⟨2⟩] ∧
      (LevelSource.drawHeights 3 (ChaCha.ofSeed 16)).1 = [1, 3, 2] ∧
      (∀ e ∈ ix.table.live, (e.cookie, e.height) ∈ [(⟨1⟩, 1), (⟨2⟩, 2)]) ∧
      ix.activeLevels = 2 := by
  generalize hops : ([.enroll ⟨[97], 7, .null, [], .null⟩, .enroll ⟨[97], 8, .null, [], .null⟩,
    .enroll ⟨[98], 9, .null, [], .null⟩] : List (Operation Nat)) = ops
  have hunlinked : ∀ op ∈ ops, op.Unlinked := by
    intro op hop
    rw [← hops] at hop
    simp only [List.mem_cons, List.not_mem_nil, or_false] at hop
    rcases hop with rfl | rfl | rfl
    all_goals exact rfl
  have hfits : Config.Fits ⟨2, 2, some 16⟩ := ⟨by decide, by decide, by decide⟩
  obtain ⟨ix₀, hcreate, hnew⟩ := exists_create (G := ChaCha) (V := Nat) hfits 0
  have hgood : ix₀.GoodFor ops.length := by
    rw [← hops]
    exact hnew.goodFor (by decide) (by decide)
  have hmeans := hnew.keeps.affordsAll_of_goodFor hunlinked hgood
  obtain ⟨-, answers, ix, hrun, -, -, hleveled, -⟩ := heights_exact hcreate hunlinked hmeans
  -- The ledger tells the answers, in which the draws have no part.
  obtain ⟨ix', ns, hrun', -⟩ := hnew.keeps.exists_run hunlinked hmeans
  obtain ⟨rfl, rfl⟩ := Prod.mk.inj (Except.ok.inj (hrun.symm.trans hrun'))
  generalize hl : (Ledger.empty _ _ : Ledger Nat).run ops = r at hrun hleveled ⊢
  have houtcomes : outcomes r.1 = [some ⟨1⟩, none, some ⟨2⟩] := by
    rw [← hl, ← hops]
    decide +kernel
  have hgiven : heightsGiven [some ⟨1⟩, none, some ⟨2⟩] (ChaCha.ofSeed 16) =
      [(⟨1⟩, 1), (⟨2⟩, 2)] := by decide +kernel
  rw [houtcomes] at hleveled
  have hheights := hleveled.heights
  have hlevels := hleveled.levels
  rw [show (Config.seeded ⟨2, 2, some 16⟩ 0 : ChaCha) = .ofSeed 16 from rfl, hgiven]
    at hheights hlevels
  exact ⟨ix₀, hcreate, _, ix, hrun, houtcomes, by decide +kernel, hheights, hlevels⟩

end Index

end NameIndex
