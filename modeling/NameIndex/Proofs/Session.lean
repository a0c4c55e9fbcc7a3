import Mathlib.Data.List.ReduceOption
import NameIndex.Proofs.Bulk
import NameIndex.Proofs.Custody
import NameIndex.Session

/-!
# Sessions are custodies

A session is several indexes and the places of the entries that their caller holds. Seen from one of
the indexes it is a custody: that index, and the entries in the places that are filled
(`Session.custody`). What a command does to the index and to the places is then done by some deeds
(`Session.perform_reaches`), even where it carries out many operations. So what deeds preserve holds
for commands: one that only moves entries keeps their names and values
(`Session.Sound.pairs_of_perform`), and a session whose indexes are at one with ledgers and whose
entries are free is still like that after a step. The step fails for want of cookies or of room, or
because a size cannot be rounded up, or not at all (`Session.Sound.step`); and so it is for a whole
run (`Session.Sound.run`).
-/

namespace NameIndex

variable {G V : Type}

/-- A free entry is no more than its name and its value. -/
theorem Entry.Free.eq {e : Entry V} (h : e.Free) : e = { name := e.name, value := e.value } := by
  obtain ⟨name, value, cookie, links, prev⟩ := e
  obtain ⟨rfl, hheight, rfl⟩ := h
  obtain rfl : links = [] := List.length_eq_zero_iff.1 hheight
  rfl

/-- The item after some others is changed. -/
theorem modify_append {α : Type} (pre post : List α) (a : α) (f : α → α) :
    (pre ++ a :: post).modify pre.length f = pre ++ f a :: post := by
  induction pre with
  | nil => rfl
  | cons b pre ih => exact congrArg (b :: ·) ih

/-! ## What deeds lead to -/

namespace Custody

variable [LevelSource G] {s s₁ s₂ s' : Custody G V} {ix ix' : Index G V} {pool : List (Entry V)}
  {e : Entry V}

/-- Some deeds lead from one custody to another. -/
def Reaches (s s' : Custody G V) : Prop := ∃ deeds, s.run deeds = .ok s'

/-- Deeds that come after others. -/
theorem run_append (s : Custody G V) (deeds deeds' : List (Deed V)) :
    s.run (deeds ++ deeds') = s.run deeds >>= fun s' => s'.run deeds' := by
  induction deeds generalizing s with
  | nil => rfl
  | cons deed deeds ih =>
    rw [List.cons_append, run, run]
    cases s.act deed with
    | error f => rfl
    | ok s' => exact ih s'

theorem Reaches.refl (s : Custody G V) : s.Reaches s := ⟨[], rfl⟩

theorem Reaches.trans (h₁ : s₁.Reaches s) (h₂ : s.Reaches s₂) : s₁.Reaches s₂ := by
  obtain ⟨deeds₁, hrun₁⟩ := h₁
  obtain ⟨deeds₂, hrun₂⟩ := h₂
  refine ⟨deeds₁ ++ deeds₂, ?_⟩
  rw [run_append, hrun₁]
  exact hrun₂

/-- One deed. -/
theorem Reaches.of_act (deed : Deed V) (h : s.act deed = .ok s') : s.Reaches s' := by
  refine ⟨[deed], ?_⟩
  rw [run, h]
  rfl

/-- What deeds lead to is sound. -/
theorem Sound.of_reaches (h : s.Sound) (hreaches : s.Reaches s') : s'.Sound := by
  obtain ⟨deeds, hrun⟩ := hreaches
  exact h.of_run hrun

/-- An operation that brings nothing is a deed. -/
theorem reaches_of_apply {op : Operation V} (hop : op.brought = []) {answer : Answer V}
    (happly : ix.apply op = .ok (answer, ix')) :
    (⟨ix, pool⟩ : Custody G V).Reaches ⟨ix', pool ++ answer.handedBack⟩ := by
  refine .of_act (.operate op hop) ?_
  rw [act, operate, happly]
  rfl

/-- An entry in the middle of the pool is enrolled. -/
theorem act_enroll (pre post : List (Entry V)) {answer : Answer V}
    (happly : ix.apply (.enroll e) = .ok (answer, ix')) :
    (⟨ix, pre ++ e :: post⟩ : Custody G V).act (.enroll pre.length) =
      .ok ⟨ix', pre ++ post ++ answer.handedBack⟩ := by
  have hat : (pre ++ e :: post)[pre.length]? = some e := by simp
  have hrest : (pre ++ e :: post).eraseIdx pre.length = pre ++ post := by
    rw [List.eraseIdx_append_of_length_le (Nat.le_refl _), Nat.sub_self, List.eraseIdx_cons_zero]
  rw [act, hat]
  dsimp only
  rw [hrest, operate, happly]
  rfl

/-- The caller parts with an entry in the middle of the pool. -/
theorem reaches_discard (ix : Index G V) (pre post : List (Entry V)) (e : Entry V) :
    (⟨ix, pre ++ e :: post⟩ : Custody G V).Reaches ⟨ix, pre ++ post⟩ := by
  refine .of_act (.discard pre.length) ?_
  rw [act, List.eraseIdx_append_of_length_le (Nat.le_refl _), Nat.sub_self,
    List.eraseIdx_cons_zero]

/-- The caller parts with the latest entry of the pool. -/
theorem reaches_discard_last (ix : Index G V) (pool : List (Entry V)) (e : Entry V) :
    (⟨ix, pool ++ [e]⟩ : Custody G V).Reaches ⟨ix, pool⟩ := by
  have hdiscard := reaches_discard ix pool [] e
  rwa [List.append_nil] at hdiscard

/-- The caller makes an entry. -/
theorem reaches_make (ix : Index G V) (pool : List (Entry V)) (he : e.Free) :
    (⟨ix, pool⟩ : Custody G V).Reaches ⟨ix, pool ++ [e]⟩ := by
  refine .of_act (.make e.name e.value) ?_
  rw [he.eq]
  rfl

/-- An operation that brings free entries is done by deeds. -/
theorem reaches_operate {op : Operation V} (hop : ∀ e ∈ op.brought, e.Free) {answer : Answer V}
    (happly : ix.apply op = .ok (answer, ix')) :
    (⟨ix, pool⟩ : Custody G V).Reaches ⟨ix', pool ++ answer.handedBack⟩ := by
  cases op with
  | enroll e =>
    have hmake := reaches_make ix pool (hop e List.mem_cons_self)
    have henroll := act_enroll pool [] happly
    rw [List.append_nil] at henroll
    exact hmake.trans (.of_act _ henroll)
  | _ => exact reaches_of_apply rfl happly

/-! ## Series -/

/-- The latest entry of the pool is enrolled, or refused and parted with. -/
theorem reaches_enroll_last {result : Except (EnrollError V) Cookie}
    (henroll : ix.enroll e = .ok (result, ix')) (pool : List (Entry V)) :
    (⟨ix, pool ++ [e]⟩ : Custody G V).Reaches ⟨ix', pool⟩ := by
  cases result with
  | ok c =>
    have happly : ix.apply (.enroll e) = .ok (.enrolled c, ix') := by
      rw [Index.apply, henroll]
      rfl
    have hact := act_enroll pool [] happly
    have hnone : (Answer.enrolled c : Answer V).handedBack = [] := rfl
    rw [List.append_nil, hnone, List.append_nil] at hact
    exact .of_act _ hact
  | error refused =>
    have happly : ix.apply (.enroll e) = .ok (.refused refused, ix') := by
      rw [Index.apply, henroll]
      rfl
    have hact := act_enroll pool [] happly
    rw [List.append_nil] at hact
    exact (Reaches.of_act _ hact).trans (reaches_discard_last ix' pool refused.entry)

/-- Removing a cookie is a deed. -/
theorem act_remove {c : Cookie} {result : Option (Entry V)}
    (hremove : ix.remove c = .ok (result, ix')) :
    (⟨ix, pool⟩ : Custody G V).act (.operate (.remove c) rfl) =
      .ok ⟨ix', pool ++ result.toList⟩ := by
  change operate _ (.remove c) = _
  rw [operate, Index.apply, hremove]
  rfl

/-- Removing a name is a deed, or nothing happens. -/
theorem reaches_of_removeName {name : Name} {result : Option (Entry V)}
    (hremove : ix.removeName name = .ok (result, ix')) (pool : List (Entry V)) :
    (⟨ix, pool⟩ : Custody G V).Reaches ⟨ix', pool ++ result.toList⟩ := by
  rcases Index.removeName_cases hremove with ⟨rfl, rfl⟩ | ⟨c, hremove⟩
  · rw [Option.toList_none, List.append_nil]
    exact .refl _
  · exact .of_act _ (act_remove hremove)

/-- A loop is done by deeds if every step of it is. -/
theorem reaches_of_foldlM {α β : Type} {f : β × Index G V → α → Except Fault (β × Index G V)}
    (hstep : ∀ ix a b b' ix', f (b, ix) a = .ok (b', ix') →
      (⟨ix, pool⟩ : Custody G V).Reaches ⟨ix', pool⟩)
    {items : List α} {b b' : β} (h : items.foldlM f (b, ix) = .ok (b', ix')) :
    (⟨ix, pool⟩ : Custody G V).Reaches ⟨ix', pool⟩ := by
  induction items generalizing ix b with
  | nil =>
    cases h
    exact .refl _
  | cons a items ih =>
    rw [List.foldlM_cons] at h
    obtain ⟨⟨b₁, ix₁⟩, hfirst, hrest⟩ := bind_eq_ok_iff.1 h
    exact (hstep ix a b b₁ ix₁ hfirst).trans (ih hrest)

/-- The names of a numbering are enrolled as entries that the caller makes. -/
theorem reaches_of_enrollNumbered {ix ix' : Index G Int} {names : Numbering} {tally : Tally}
    (h : ix.enrollNumbered names = .ok (tally, ix')) (pool : List (Entry Int)) :
    (⟨ix, pool⟩ : Custody G Int).Reaches ⟨ix', pool⟩ := by
  refine reaches_of_foldlM (fun ix i t t' ix' hstep => ?_) h
  obtain ⟨⟨result, ix₁⟩, henroll, hdone⟩ := bind_eq_ok_iff.1 hstep
  cases hdone
  have hfree : ({ name := names.name i, value := i } : Entry Int).Free := ⟨rfl, rfl, rfl⟩
  exact (reaches_make ix pool hfree).trans (reaches_enroll_last henroll pool)

/-- The names of a numbering are removed, and the caller parts with the entries. -/
theorem reaches_of_removeNumbered {names : Numbering} {removed : Nat}
    (h : ix.removeNumbered names = .ok (removed, ix')) (pool : List (Entry V)) :
    (⟨ix, pool⟩ : Custody G V).Reaches ⟨ix', pool⟩ := by
  refine reaches_of_foldlM (fun ix i before after ix' hstep => ?_) h
  obtain ⟨⟨result, ix₁⟩, hremove, hdone⟩ := bind_eq_ok_iff.1 hstep
  have hreaches := reaches_of_removeName hremove pool
  cases result with
  | none =>
    cases hdone
    rwa [Option.toList_none, List.append_nil] at hreaches
  | some e =>
    cases hdone
    exact hreaches.trans (reaches_discard_last _ pool e)

/-- The latest entry of the pool comes and goes some times, and the caller parts with it. -/
theorem reaches_of_churn {got : List Cookie} {rounds : Nat}
    {result : Except (EnrollError V) (List Cookie)}
    (h : ix.churn e got rounds = .ok (result, ix')) :
    (⟨ix, pool ++ [e]⟩ : Custody G V).Reaches ⟨ix', pool⟩ := by
  induction rounds generalizing ix e got with
  | zero =>
    cases h
    exact reaches_discard_last _ pool e
  | succ rounds ih =>
    rw [Index.churn] at h
    obtain ⟨⟨outcome, ix₁⟩, henroll, hrest⟩ := bind_eq_ok_iff.1 h
    have henrolled := reaches_enroll_last henroll pool
    cases outcome with
    | error refused =>
      cases hrest
      exact henrolled
    | ok c =>
      obtain ⟨⟨removed, ix₂⟩, hremove, hrest⟩ := bind_eq_ok_iff.1 hrest
      have hremoved := henrolled.trans (.of_act _ (act_remove hremove))
      cases removed with
      | none =>
        cases hrest
        rwa [Option.toList_none, List.append_nil] at hremoved
      | some e' => exact hremoved.trans (ih hrest)

end Custody

/-- Whether a command brings only free entries, and makes only new indexes. -/
def Command.Clean : Command → Prop
  | .operate op => ∀ e ∈ op.brought, e.Free
  | .churn e _ => e.Free
  | .create _ _ overlaid => overlaid = none
  | _ => True

/-- Whether a command only moves entries between its index and the places of the caller. -/
def Command.Moves : Command → Prop
  | .operate op => op.brought = [] ∧ op.Moves
  | .enrollHeld _ => True
  | .removeName _ => True
  | _ => False

/-- An index that nothing is laid over is one that is created. -/
theorem Index.createWith_none [LevelSource G] (config : Config) (entropy : UInt64) :
    (createWith config entropy none : Except Fault (Index G V)) = create config entropy := by
  rw [createWith]
  cases (create config entropy : Except Fault (Index G V)) <;> rfl

namespace Session

variable {s s' : Session G} {ix ix' : Index G Int} {place : Nat} {e : Entry Int} {command : Command}
  {reply : Reply}

/-! ## Places -/

/-- The entries held, without their places. -/
def entries (s : Session G) : List (Entry Int) := s.held.toList.reduceOption

/-- A session as it is seen from an index. -/
def custody (s : Session G) (ix : Index G Int) : Custody G Int := ⟨ix, s.entries⟩

/-- Filled places are those of all entries. -/
theorem reduceOption_map_some (es : List (Entry Int)) : (es.map some).reduceOption = es := by
  rw [List.reduceOption, List.filterMap_map]
  exact List.filterMap_some

theorem entries_keep (s : Session G) (es : List (Entry Int)) :
    (s.keep es).entries = s.entries ++ es := by
  rw [entries, keep, Array.toList_appendList, List.reduceOption_append, reduceOption_map_some]
  rfl

/-- What is handed back is held. -/
theorem custody_handBack {result : Option (Entry Int)}
    (h : s.handBack ix result = (reply, s', ix')) :
    s'.custody ix' = ⟨ix, s.entries ++ result.toList⟩ := by
  cases h
  rw [custody, entries_keep]

/-- A place that is filled holds one of the entries, which can be exchanged or taken away. -/
theorem exists_heldAt (h : s.heldAt place = some e) :
    ∃ pre post, s.entries = pre ++ e :: post ∧
      ∀ o, (s.setHeldAt place o).entries = pre ++ (o.toList ++ post) := by
  have hat : s.held.toList[place]? = some (some e) := by
    rw [heldAt, Option.join_eq_some_iff] at h
    rwa [Array.getElem?_toList]
  obtain ⟨hlt, hget⟩ := List.getElem?_eq_some_iff.1 hat
  refine ⟨(s.held.toList.take place).reduceOption, (s.held.toList.drop (place + 1)).reduceOption,
    ?_, fun o => ?_⟩
  · rw [entries, ← List.reduceOption_cons_of_some, ← List.reduceOption_append, ← hget,
      ← List.drop_eq_getElem_cons hlt, List.take_append_drop]
  · rw [← List.reduceOption_singleton, ← List.reduceOption_append, ← List.reduceOption_append,
      entries, setHeldAt, Array.toList_setIfInBounds, List.set_eq_take_append_cons_drop,
      if_pos hlt]
    rfl

/-- An empty place can be emptied. -/
theorem setHeldAt_none (h : s.heldAt place = none) : s.setHeldAt place none = s := by
  have hat : ∀ (hlt : place < s.held.size), s.held[place] = none := fun hlt => by
    rw [heldAt, Array.getElem?_eq_getElem hlt] at h
    exact h
  have hheld : s.held.setIfInBounds place none = s.held := by
    rw [Array.setIfInBounds]
    split_ifs with hlt
    · rw [← hat hlt, Array.set_getElem_self]
    · rfl
  rw [setHeldAt, hheld]

/-! ## Soundness -/

/-- The indexes of the session keep ledgers, and the entries of its caller are free. -/
structure Sound (s : Session G) : Prop where
  /-- Every index is at one with some ledger. -/
  index : ∀ ix ∈ s.indexes, ∃ ns l, ix.Keeps ns l
  /-- The entries held are in no index. -/
  entries : ∀ e ∈ s.entries, e.Free

/-- A sound session is a sound custody from every side. -/
theorem Sound.custody (h : s.Sound) (hix : ix ∈ s.indexes) : (s.custody ix).Sound :=
  ⟨h.index ix hix, h.entries⟩

variable [LevelSource G]

/-! ## One command -/

/-- An operation of a session is one of the custody. -/
theorem operate_eq (s : Session G) (ix : Index G Int) (op : Operation Int) :
    (s.operate ix op).map (fun r => r.2.1.custody r.2.2) = (s.custody ix).operate op := by
  rw [operate, Custody.operate, custody]
  cases ix.apply op with
  | error f => rfl
  | ok r =>
    obtain ⟨answer, ix'⟩ := r
    change Except.ok (⟨ix', (s.keep answer.handedBack).entries⟩ : Custody G Int) = _
    rw [entries_keep]
    rfl

/-- A command that only moves entries does nothing, or it is a deed that only moves them. -/
theorem perform_moves (hmoves : command.Moves)
    (h : s.perform ix command = .ok (reply, s', ix')) :
    s'.custody ix' = s.custody ix ∨
      ∃ deed : Deed Int, deed.Moves ∧ (s.custody ix).act deed = .ok (s'.custody ix') := by
  cases command with
  | operate op =>
    obtain ⟨hbrought, hmoves⟩ := hmoves
    refine .inr ⟨.operate op hbrought, hmoves, ?_⟩
    rw [perform] at h
    rw [Custody.act, ← operate_eq, h]
    rfl
  | enrollHeld place =>
    rw [perform] at h
    cases hat : s.heldAt place with
    | none =>
      rw [hat] at h
      cases h
      exact .inl rfl
    | some e =>
      obtain ⟨pre, post, hentries, hset⟩ := exists_heldAt hat
      rw [hat] at h
      obtain ⟨⟨answer, ix₁⟩, happly, hdone⟩ := bind_eq_ok_iff.1 h
      cases hdone
      rw [custody, custody, entries_keep, hset, hentries]
      exact .inr ⟨.enroll pre.length, trivial, Custody.act_enroll pre post happly⟩
  | removeName name =>
    obtain ⟨⟨result, ix₁⟩, hremove, hdone⟩ := bind_eq_ok_iff.1 h
    rw [custody_handBack (Except.ok.inj hdone)]
    rcases Index.removeName_cases hremove with ⟨rfl, rfl⟩ | ⟨c, hremove⟩
    · rw [Option.toList_none, List.append_nil]
      exact .inl rfl
    · exact .inr ⟨.operate (.remove c) rfl, trivial, Custody.act_remove hremove⟩
  | _ => exact absurd hmoves not_false

theorem reaches_of_moves (hmoves : command.Moves)
    (h : s.perform ix command = .ok (reply, s', ix')) :
    (s.custody ix).Reaches (s'.custody ix') := by
  rcases perform_moves hmoves h with hsame | ⟨deed, -, hact⟩
  · rw [hsame]
    exact .refl _
  · exact .of_act deed hact

/-- A held entry gets another value. -/
theorem reaches_setHeld (s : Session G) (ix : Index G Int) (place : Nat) (value : Int) :
    (s.custody ix).Reaches
      ((s.setHeldAt place ((s.heldAt place).map fun e => { e with value })).custody ix) := by
  cases hat : s.heldAt place with
  | none =>
    rw [Option.map_none, setHeldAt_none hat]
    exact .refl _
  | some e =>
    obtain ⟨pre, post, hentries, hset⟩ := exists_heldAt hat
    rw [custody, custody, hentries, hset]
    refine .of_act (.revalue pre.length value) ?_
    rw [Custody.act, modify_append]
    rfl

/-- A held entry is copied. -/
theorem reaches_copyHeld (s : Session G) (ix : Index G Int) (place : Nat) :
    (s.custody ix).Reaches ⟨ix, s.entries ++ ((s.heldAt place).map Entry.unlinked).toList⟩ := by
  cases hat : s.heldAt place with
  | none =>
    rw [Option.map_none, Option.toList_none, List.append_nil]
    exact .refl _
  | some e =>
    obtain ⟨pre, post, hentries, -⟩ := exists_heldAt hat
    have hplace : s.entries[pre.length]? = some e := by simp [hentries]
    refine .of_act (.copyOwned pre.length) ?_
    rw [Custody.act, custody, hplace]

/-- A held entry is taken apart. -/
theorem reaches_takeApart (s : Session G) (ix : Index G Int) (place : Nat) :
    (s.custody ix).Reaches ((s.setHeldAt place none).custody ix) := by
  cases hat : s.heldAt place with
  | none =>
    rw [setHeldAt_none hat]
    exact .refl _
  | some e =>
    obtain ⟨pre, post, hentries, hset⟩ := exists_heldAt hat
    rw [custody, custody, hentries, hset]
    exact Custody.reaches_discard ix pre post e

/-- What a command does to its index and to the entries held is done by deeds. -/
theorem perform_reaches (hclean : command.Clean)
    (h : s.perform ix command = .ok (reply, s', ix')) :
    (s.custody ix).Reaches (s'.custody ix') := by
  cases command with
  | operate op =>
    obtain ⟨⟨answer, ix₁⟩, happly, hdone⟩ := bind_eq_ok_iff.1 h
    cases hdone
    rw [custody, custody, entries_keep]
    exact Custody.reaches_operate hclean happly
  | enrollHeld place =>
    have hmoves : (Command.enrollHeld place).Moves := trivial
    exact reaches_of_moves hmoves h
  | removeName name =>
    have hmoves : (Command.removeName name).Moves := trivial
    exact reaches_of_moves hmoves h
  | enrollNumbered names =>
    obtain ⟨⟨tally, ix₁⟩, henrolled, hdone⟩ := bind_eq_ok_iff.1 h
    cases hdone
    exact Custody.reaches_of_enrollNumbered henrolled _
  | removeNumbered names =>
    obtain ⟨⟨removed, ix₁⟩, hremoved, hdone⟩ := bind_eq_ok_iff.1 h
    cases hdone
    exact Custody.reaches_of_removeNumbered hremoved _
  | churn e rounds =>
    obtain ⟨⟨result, ix₁⟩, hchurn, hdone⟩ := bind_eq_ok_iff.1 h
    cases hdone
    exact (Custody.reaches_make ix s.entries hclean).trans (Custody.reaches_of_churn hchurn)
  | create | heights | histogram | outline =>
    obtain ⟨_, -, hdone⟩ := bind_eq_ok_iff.1 h
    cases hdone
    exact .refl _
  | copyEntry c =>
    rw [custody_handBack (Except.ok.inj h)]
    exact .of_act (.copyHeld c) rfl
  | setHeld place value =>
    cases h
    exact reaches_setHeld s ix place value
  | copyHeld place =>
    rw [custody_handBack (Except.ok.inj h)]
    exact reaches_copyHeld s ix place
  | takeApart place =>
    cases h
    exact reaches_takeApart s ix place
  | _ =>
    cases h
    exact .refl _

/-- A command adds no index to the session, or its own index once more, or a new one. -/
theorem perform_indexes (hclean : command.Clean)
    (h : s.perform ix command = .ok (reply, s', ix')) :
    s'.indexes = s.indexes ∨ ∃ new, s'.indexes = s.indexes.push new ∧
      (new = ix ∨ ∃ config entropy, Index.create config entropy = .ok new) := by
  cases command with
  | enrollHeld place =>
    rw [perform] at h
    cases hat : s.heldAt place with
    | none =>
      rw [hat] at h
      cases h
      exact .inl rfl
    | some e =>
      rw [hat] at h
      obtain ⟨_, -, hdone⟩ := bind_eq_ok_iff.1 h
      cases hdone
      exact .inl rfl
  | copyIndex =>
    cases h
    exact .inr ⟨_, rfl, .inl rfl⟩
  | create config entropy overlaid =>
    obtain rfl : overlaid = none := hclean
    obtain ⟨new, hcreate, hdone⟩ := bind_eq_ok_iff.1 h
    rw [Index.createWith_none] at hcreate
    cases hdone
    exact .inr ⟨new, rfl, .inr ⟨config, entropy, hcreate⟩⟩
  | operate | enrollNumbered | removeNumbered | churn | removeName | heights | histogram
  | outline =>
    obtain ⟨_, -, hdone⟩ := bind_eq_ok_iff.1 h
    cases hdone
    exact .inl rfl
  | _ =>
    cases h
    exact .inl rfl

namespace Sound

/-- A command that stops does so for want of cookies or of room, or because a size cannot be rounded
up. -/
theorem perform_stops (h : s.Sound) (hix : ix ∈ s.indexes) (hclean : command.Clean) {f : Fault}
    (hstops : s.perform ix command = .error f) : f.IsShortage ∨ f = .sizeTooLarge := by
  obtain ⟨ns, l, hkeeps⟩ := h.index ix hix
  have hlayout := hkeeps.layout
  cases command with
  | operate op =>
    rcases bind_eq_error_iff.1 hstops with happly | ⟨_, -, hdone⟩
    · exact .inl (hlayout.isShortage_of_apply (Operation.unlinked_of_free hclean) happly)
    · cases hdone
  | enrollHeld place =>
    cases hat : s.heldAt place with
    | none =>
      rw [perform, hat] at hstops
      cases hstops
    | some e =>
      obtain ⟨pre, post, hentries, -⟩ := exists_heldAt hat
      have hfree : e.Free := h.entries e (by simp [hentries])
      rw [perform, hat] at hstops
      rcases bind_eq_error_iff.1 hstops with happly | ⟨_, -, hdone⟩
      · have he : (Operation.enroll e).Unlinked := hfree.isLinked
        exact .inl (hlayout.isShortage_of_apply he happly)
      · cases hdone
  | enrollNumbered names =>
    rcases bind_eq_error_iff.1 hstops with henrolled | ⟨_, -, hdone⟩
    · rw [Index.enrollNumbered_eq, map_eq_error_iff] at henrolled
      exact .inl (hlayout.isShortage_of_run names.unlinked_enrolments henrolled)
    · cases hdone
  | removeNumbered names =>
    obtain ⟨removed, ix', hremoved, -⟩ := hlayout.exists_removeNumbered names
    rw [perform, hremoved] at hstops
    cases hstops
  | churn e rounds =>
    have hfree : e.Free := hclean
    rcases hlayout.exists_churn hfree.isLinked [] rounds with ⟨f', hchurn, hf⟩ | ⟨_, _, hchurn, -⟩
    · rw [perform, hchurn] at hstops
      cases hstops
      exact .inl hf
    · rw [perform, hchurn] at hstops
      cases hstops
  | removeName name =>
    obtain ⟨result, ix', hremove, -⟩ := hlayout.exists_removeName name
    rw [perform, hremove] at hstops
    cases hstops
  | create config entropy overlaid =>
    obtain rfl : overlaid = none := hclean
    rcases bind_eq_error_iff.1 hstops with hcreate | ⟨_, -, hdone⟩
    · rw [Index.createWith_none] at hcreate
      exact (Index.eq_of_create_eq_error hcreate).symm.imp_left .inr
    · cases hdone
  | heights =>
    rw [perform, Index.heights, hlayout.entries_eq] at hstops
    cases hstops
  | histogram =>
    rw [perform, Index.histogram, Index.heights, hlayout.entries_eq] at hstops
    cases hstops
  | outline =>
    rw [perform, Index.outline, hlayout.entries_eq] at hstops
    cases hstops
  | _ => cases hstops

/-- A command leaves the session sound, and its own index as well. -/
theorem of_perform (h : s.Sound) (hix : ix ∈ s.indexes) (hclean : command.Clean)
    (hdone : s.perform ix command = .ok (reply, s', ix')) :
    s'.Sound ∧ ∃ ns l, ix'.Keeps ns l := by
  have hcustody := (h.custody hix).of_reaches (perform_reaches hclean hdone)
  refine ⟨⟨?_, hcustody.pool⟩, hcustody.index⟩
  rcases perform_indexes hclean hdone with hsame | ⟨new, hpush, hnew⟩
  · rw [hsame]
    exact h.index
  · rw [hpush]
    intro ix₁ hix₁
    rcases Array.mem_push.1 hix₁ with hix₁ | rfl
    · exact h.index ix₁ hix₁
    rcases hnew with rfl | ⟨config, entropy, hcreate⟩
    · exact h.index ix₁ hix
    · exact ⟨[], _, (Index.new_of_create hcreate).keeps⟩

/-- A command that only moves entries leaves the names and values of all entries as they are, in the
index and in the places together. -/
theorem pairs_of_perform (h : s.Sound) (hix : ix ∈ s.indexes) (hmoves : command.Moves)
    (hdone : s.perform ix command = .ok (reply, s', ix')) :
    (s'.custody ix').pairs.Perm (s.custody ix).pairs := by
  rcases perform_moves hmoves hdone with hsame | ⟨deed, hdeed, hact⟩
  · rw [hsame]
  · exact ((h.custody hix).of_act hact).2 hdeed

/-- A step leaves the session sound. If it fails, it does so for want of cookies or of room, or
because a size cannot be rounded up. -/
theorem step (h : s.Sound) {todo : Step} (hclean : todo.command.Clean) :
    (s.step todo).2.Sound ∧
      ∀ f, (s.step todo).1 = .failed f → f.IsShortage ∨ f = .sizeTooLarge := by
  rw [Session.step]
  cases hat : s.indexes[todo.index]? with
  | none => exact ⟨h, fun f hf => nomatch hf⟩
  | some ix =>
    have hix : ix ∈ s.indexes := Array.mem_of_getElem? hat
    dsimp only
    cases hdone : s.perform ix todo.command with
    | error fault =>
      refine ⟨h, fun f hf => ?_⟩
      cases hf
      exact h.perform_stops hix hclean hdone
    | ok r =>
      obtain ⟨reply, s', ix'⟩ := r
      obtain ⟨h', hkeeps⟩ := h.of_perform hix hclean hdone
      refine ⟨⟨fun ix₁ hix₁ => ?_, h'.entries⟩, fun f hf => nomatch hf⟩
      rcases Array.mem_or_eq_of_mem_setIfInBounds hix₁ with hix₁ | rfl
      · exact h'.index ix₁ hix₁
      · exact hkeeps

/-- So it is with every step of a run. -/
theorem run (h : s.Sound) {steps : List Step} (hclean : ∀ todo ∈ steps, todo.command.Clean)
    {f : Fault} (hf : .failed f ∈ s.run steps) : f.IsShortage ∨ f = .sizeTooLarge := by
  -- By induction on the steps, from whatever session the ones before have left.
  induction steps generalizing s with
  | nil => exact absurd hf List.not_mem_nil
  | cons todo steps ih =>
    rw [List.forall_mem_cons] at hclean
    obtain ⟨hsound, hstops⟩ := h.step hclean.1
    cases hstep : s.step todo with
    | mk outcome s' =>
      rw [hstep] at hsound hstops
      rw [Session.run, hstep] at hf
      cases outcome with
      | failed fault =>
        cases List.mem_singleton.1 hf
        exact hstops _ rfl
      | noIndex | replied =>
        rcases List.mem_cons.1 hf with hfirst | hrest
        · cases hfirst
        · exact ih hsound hclean.2 hrest

end Sound

/-- A session of a new index whose caller holds free entries is sound. -/
theorem sound_of_start {config : Config} {entropy : UInt64} {held : List (Entry Int)}
    (hheld : ∀ e ∈ held, e.Free) (h : start config entropy none held = .ok s) : s.Sound := by
  obtain ⟨ix, hcreate, hdone⟩ := bind_eq_ok_iff.1 h
  rw [Index.createWith_none] at hcreate
  cases hdone
  refine ⟨fun ix₁ hix₁ => ?_, fun e he => hheld e ?_⟩
  · rw [List.mem_toArray, List.mem_singleton] at hix₁
    rw [hix₁]
    exact ⟨[], _, (Index.new_of_create hcreate).keeps⟩
  · rwa [entries, List.toList_toArray, reduceOption_map_some] at he

end Session

end NameIndex
