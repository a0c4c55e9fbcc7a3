import NameIndex.Proofs.Cursor
import NameIndex.Proofs.Scan

/-!
# Entries whose names begin alike

The entries whose names begin with a stem are a run of the entries in name order: all before it are
before the stem, and all after it are after the stem and begin otherwise (`exists_stem_run`). A
cursor that starts at the place of the stem and stops at the first name that begins otherwise
therefore gives out the whole run.
-/

namespace NameIndex

variable {G V : Type} {stem : Name}

/-- Of ascending entries not before a stem the first ones begin with it, and no others do. -/
theorem exists_stem_run {es : List (Entry V)} (hsorted : es.Pairwise fun a b => a.name < b.name)
    (hstem : ∀ e ∈ es, ¬ e.name < stem) :
    ∃ run rest, es = run ++ rest ∧ (∀ e ∈ run, stem <+: e.name) ∧
      ∀ e ∈ rest, stem < e.name ∧ ¬ stem <+: e.name := by
  induction es with
  | nil => exact ⟨[], [], rfl, by simp, by simp⟩
  | cons e es ih =>
    rw [List.pairwise_cons] at hsorted
    rw [List.forall_mem_cons] at hstem
    by_cases hbegins : stem <+: e.name
    · obtain ⟨run, rest, rfl, hrun, hrest⟩ := ih hsorted.2 hstem.2
      exact ⟨e :: run, rest, rfl, List.forall_mem_cons.2 ⟨hbegins, hrun⟩, hrest⟩
    · -- What comes after a name that begins otherwise does so too.
      have hafter : stem < e.name := by
        by_contra hnot
        exact hbegins (Name.eq_of_not_lt hnot hstem.1 ▸ List.prefix_refl stem)
      refine ⟨[], e :: es, rfl, by simp, List.forall_mem_cons.2 ⟨⟨hafter, hbegins⟩, fun d hd => ?_⟩⟩
      exact ⟨List.lt_trans hafter (hsorted.1 d hd),
        fun hd' => hbegins (Name.isPrefix_of_between hstem.1 (hsorted.1 d hd) hd')⟩

/-- Of a run of entries that begin with a stem, and of others after it, the run is taken. -/
theorem takeWhile_stem_run {run rest : List (Entry V)} (hrun : ∀ e ∈ run, stem <+: e.name)
    (hrest : ∀ e ∈ rest, ¬ stem <+: e.name) :
    (run ++ rest).takeWhile (fun e => stem.isPrefixOf e.name) = run := by
  rw [List.takeWhile_append_of_pos fun e he => List.isPrefixOf_iff_prefix.2 (hrun e he)]
  cases rest with
  | nil => exact List.append_nil run
  | cons e rest =>
    have hstop : (e :: rest).takeWhile (fun e => stem.isPrefixOf e.name) = [] :=
      List.takeWhile_cons_of_neg fun he =>
        hrest e List.mem_cons_self (List.isPrefixOf_iff_prefix.1 he)
    rw [hstop, List.append_nil]

/-- The run between entries that do not begin with the stem is what a filter keeps. -/
theorem filter_stem_run {before run rest : List (Entry V)}
    (hbefore : ∀ e ∈ before, ¬ stem <+: e.name) (hrun : ∀ e ∈ run, stem <+: e.name)
    (hrest : ∀ e ∈ rest, ¬ stem <+: e.name) :
    (before ++ (run ++ rest)).filter (fun e => stem.isPrefixOf e.name) = run := by
  have hdropped : ∀ {es : List (Entry V)}, (∀ e ∈ es, ¬ stem <+: e.name) →
      es.filter (fun e => stem.isPrefixOf e.name) = [] := fun hes =>
    List.filter_eq_nil_iff.2 fun e he hkept => hes e he (List.isPrefixOf_iff_prefix.1 hkept)
  have hkept : run.filter (fun e => stem.isPrefixOf e.name) = run :=
    List.filter_eq_self.2 fun e he => List.isPrefixOf_iff_prefix.2 (hrun e he)
  rw [List.filter_append, List.filter_append, hdropped hbefore, hkept, hdropped hrest,
    List.nil_append, List.append_nil]

namespace Index

/-- The entries `run` that begin with a stem, between those before the stem and those after it. -/
structure StemRun (ix : Index G V) (stem : Name) (before run rest : List (Entry V)) : Prop where
  /-- Together they are all entries in name order. -/
  inOrder : ix.inOrder = before ++ (run ++ rest)
  /-- Those before the run are before the stem. -/
  before_lt : ∀ e ∈ before, e.name < stem
  /-- Those of the run begin with the stem. -/
  begins : ∀ e ∈ run, stem <+: e.name
  /-- Those after the run are after the stem and begin otherwise. -/
  rest_after : ∀ e ∈ rest, stem < e.name ∧ ¬ stem <+: e.name
  /-- Seeking the stem leads to the start of the run, or past it if it is empty. -/
  seek : ix.seek stem = .ok (run ++ rest).head?

variable {ix : Index G V} {ns : List (Node V)} {before run rest : List (Entry V)}

/-- The run consists of all entries that begin with the stem. -/
theorem StemRun.filter_eq (h : ix.StemRun stem before run rest) :
    ix.inOrder.filter (fun e => stem.isPrefixOf e.name) = run := by
  have hbefore : ∀ e ∈ before, ¬ stem <+: e.name := fun e he hbegins =>
    Name.not_lt_of_isPrefix hbegins (h.before_lt e he)
  rw [h.inOrder, filter_stem_run hbefore h.begins fun e he => (h.rest_after e he).2]

/-- A threaded index gives out the run of a stem. -/
theorem Threaded.exists_stemRun (h : ix.Threaded ns) (stem : Name) :
    ∃ before run rest, ix.StemRun stem before run rest ∧ ix.startingWith stem = .ok run := by
  obtain ⟨pre, post, rfl, hpre, hpost⟩ := exists_split_at h.sorted stem
  have hinOrder := h.inOrder_eq
  have hsorted := h.weave_sorted
  rw [weave_append, List.append_nil] at hinOrder hsorted
  have hbefore : ∀ e ∈ weave post .null pre, e.name < stem := fun e he =>
    hpre e.node (node_mem_of_mem_weave he)
  have hfrom : ∀ e ∈ weave [] (lastOf .null pre) post, ¬ e.name < stem := fun e he =>
    hpost e.node (node_mem_of_mem_weave he)
  have hseek := h.seek_eq hpre hpost
  have hstarting := h.startingWith_eq hpre hpost
  obtain ⟨run, rest, hsplit, hrun, hrest⟩ :=
    exists_stem_run (List.pairwise_append.1 hsorted).2.1 hfrom
  rw [hsplit] at hinOrder hseek hstarting
  rw [takeWhile_stem_run hrun fun e he => (hrest e he).2] at hstarting
  exact ⟨_, run, rest, ⟨hinOrder, hbefore, hrun, hrest, hseek⟩, hstarting⟩

/-- The entries that an index that passes its check gives out for a stem are all those that begin
with the stem, in name order. They are one run of the entries, at the place of the stem. -/
theorem startingWith_exact {n : Nat} (hcheck : ix.check = .ok n) (stem : Name) :
    ix.inOrder.Perm ix.table.live ∧ (ix.inOrder.Pairwise fun a b => a.name < b.name) ∧
      ∃ before run rest, ix.StemRun stem before run rest ∧ ix.startingWith stem = .ok run ∧
        ix.inOrder.filter (fun e => stem.isPrefixOf e.name) = run := by
  obtain ⟨ns, h⟩ := exists_threaded_of_check hcheck
  have hsorted := h.weave_sorted
  rw [← h.inOrder_eq] at hsorted
  obtain ⟨before, run, rest, hrun, hstarting⟩ := h.exists_stemRun stem
  exact ⟨ix.inOrder_perm, hsorted, before, run, rest, hrun, hstarting, hrun.filter_eq⟩

/-- The stem is a name of the index, and its run ends before another name. -/
theorem startingWith_exact_trio :
    trio.check = .ok 3 ∧ ∃ run, trio.startingWith [97] = .ok run ∧
      run.map Entry.name = [[97], [97, 98]] := by
  have hcheck : trio.check = .ok 3 := by rfl
  obtain ⟨-, -, -, run, -, -, hstarting, hfilter⟩ := startingWith_exact hcheck [97]
  refine ⟨hcheck, run, hstarting, ?_⟩
  rw [← hfilter]
  decide

end Index

end NameIndex
