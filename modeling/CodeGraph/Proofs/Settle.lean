import CodeGraph.Proofs.ChangeSet
import Mathlib.Data.List.Induction

/-!
# What a settled list still names

A path that some change names is named by the settled list as well, unless the last change that
names it is a rename away from it that continues another rename: the settled rename then goes back
to the other's source, and nothing names the place between any more. If the project holds data of
that place from before, the data stays.

* `Change.names`, `Change.marksStale`, `Change.leaves`: what a change says about a path.
* `forgets`: when a rename drops the place that it leaves.
* **`settle_names_iff_not_forgets`**: the paths that a settled list names.
-/

namespace CodeGraph

namespace Change

/-- Whether a change names a path, as its own or as the source of a rename. -/
def names (c : Change) (p : Path) : Bool := c.path.same p || c.source?.any (·.same p)

/-- Whether a change says that there may be data of a path from before: the path was written again
or deleted, or a rename leaves it. -/
def marksStale (c : Change) (p : Path) : Bool :=
  (c.path.same p && (c.kind == .modified || c.kind == .deleted)) || c.source?.any (·.same p)

/-- Whether a change renames a path to another place. -/
def leaves (c : Change) (p : Path) : Bool := !c.path.same p && c.source?.any (·.same p)

theorem names_iff {c : Change} {p : Path} :
    c.names p = true ↔ c.path.parts = p.parts ∨ c.sourceKey? = some p.parts := by
  rw [names, Bool.or_eq_true, Path.same_iff, any_source?_same]

theorem leaves_iff {c : Change} {p : Path} :
    c.leaves p = true ↔ c.path.parts ≠ p.parts ∧ c.sourceKey? = some p.parts := by
  rw [leaves, Bool.and_eq_true, any_source?_same, Bool.not_eq_true', ← Bool.not_eq_true,
    Path.same_iff]

end Change

/-- Whether a rename drops the place that it leaves: the pending change of that place is a rename
from a third place without a pending change, and no other pending rename leaves the place. -/
def forgets (pending : List Change) (c : Change) (p : Path) : Bool :=
  c.leaves p && !pending.any (·.leaves p) &&
    pending.any fun d => d.path.same p && d.source?.any fun o =>
      !o.same p && !pending.any (·.path.same o)

namespace ChangeSet

/-- Whether a pending change names a path, given by its parts. -/
def Names (s : ChangeSet) (k : List Part) : Prop :=
  (∃ d, s.pending k = some d) ∨ ∃ k' d, s.pending k' = some d ∧ d.sourceKey? = some k

section View

variable {s : ChangeSet} (h : s.Indexed)
include h

theorem any_toList {f : Change → Bool} :
    s.toList.any f = true ↔ ∃ k d, s.pending k = some d ∧ f d = true := by
  rw [List.any_eq_true]
  constructor
  · rintro ⟨d, hd, hf⟩
    exact ⟨_, d, (mem_toList h).1 hd, hf⟩
  · rintro ⟨k, d, hd, hf⟩
    obtain rfl := path_of_pending h hd
    exact ⟨d, (mem_toList h).2 hd, hf⟩

theorem any_toList_path {o : Path} :
    s.toList.any (·.path.same o) = true ↔ ∃ d, s.pending o.parts = some d := by
  rw [any_toList h]
  constructor
  · rintro ⟨k, d, hd, hp⟩
    obtain rfl := path_of_pending h hd
    exact ⟨d, by rwa [← Path.same_iff.1 hp]⟩
  · rintro ⟨d, hd⟩
    exact ⟨_, d, hd, Path.same_iff.2 (path_of_pending h hd)⟩

theorem any_toList_names {p : Path} : s.toList.any (·.names p) = true ↔ s.Names p.parts := by
  rw [any_toList h]
  unfold Names
  constructor
  · rintro ⟨k, d, hd, hn⟩
    rcases Change.names_iff.1 hn with hp | hs
    · rw [← hp, path_of_pending h hd]
      exact .inl ⟨d, hd⟩
    · exact .inr ⟨k, d, hd, hs⟩
  · rintro (⟨d, hd⟩ | ⟨k, d, hd, hs⟩)
    · exact ⟨_, d, hd, Change.names_iff.2 (.inl (path_of_pending h hd))⟩
    · exact ⟨k, d, hd, Change.names_iff.2 (.inr hs)⟩

theorem forgets_toList_iff {c : Change} {p : Path} :
    forgets s.toList c p = true ↔
      (c.path.parts ≠ p.parts ∧ c.sourceKey? = some p.parts) ∧
      (∀ k d, s.pending k = some d → d.sourceKey? = some p.parts → k = p.parts) ∧
      ∃ d o, s.pending p.parts = some d ∧ d.source? = some o ∧ o.parts ≠ p.parts ∧
        s.pending o.parts = none := by
  have hleaves : (!s.toList.any (·.leaves p)) = true ↔
      ∀ k d, s.pending k = some d → d.sourceKey? = some p.parts → k = p.parts := by
    rw [Bool.not_eq_true', ← Bool.not_eq_true, any_toList h]
    constructor
    · intro hn k d hd hs
      apply Classical.byContradiction
      intro hk
      rw [← path_of_pending h hd] at hk
      exact hn ⟨k, d, hd, Change.leaves_iff.2 ⟨hk, hs⟩⟩
    · rintro hall ⟨k, d, hd, hl⟩
      obtain ⟨hp, hs⟩ := Change.leaves_iff.1 hl
      rw [path_of_pending h hd] at hp
      exact hp (hall k d hd hs)
  have hnone : ∀ o : Path, (!s.toList.any (·.path.same o)) = true ↔ s.pending o.parts = none := by
    intro o
    rw [Bool.not_eq_true', ← Bool.not_eq_true, any_toList_path h]
    cases s.pending o.parts <;> simp
  rw [forgets, Bool.and_eq_true, Bool.and_eq_true, Change.leaves_iff, hleaves, and_assoc,
    any_toList h]
  refine and_congr_right fun _ => and_congr_right fun _ => ?_
  simp only [Bool.and_eq_true, Option.any_eq_true, hnone, Bool.not_eq_true', ← Bool.not_eq_true,
    Path.same_iff]
  constructor
  · rintro ⟨k, d, hd, hp, o, ho, hne, hno⟩
    rw [path_of_pending h hd] at hp
    subst hp
    exact ⟨d, o, hd, ho, hne, hno⟩
  · rintro ⟨d, o, hd, ho, hne, hno⟩
    exact ⟨_, d, hd, path_of_pending h hd, o, ho, hne, hno⟩

end View

/-! ## One change -/

section Push

variable {s : ChangeSet} (h : s.Indexed) (c : Change) (k : List Part)
include h

theorem snd_subsume_cases :
    (s.subsume c).2 = c ∨ ∃ source d o, c.source? = some source ∧
      s.pending source.parts = some d ∧ d.source? = some o ∧
      (s.subsume c).1.pending o.parts = none ∧ (s.subsume c).2 = .renamed o c.path := by
  rw [snd_subsume h]
  cases ho : s.origin? c with
  | none => exact .inl rfl
  | some o =>
    dsimp only
    split
    · exact .inl rfl
    · rename_i hp
      obtain ⟨source, hs, ho⟩ := Option.bind_eq_some_iff.1 ho
      obtain ⟨d, hd, ho⟩ := Option.bind_eq_some_iff.1 ho
      exact .inr ⟨source, d, o, hs, hd, ho, by simpa using hp, rfl⟩

theorem snd_subsume_of_pending {source o : Path} {d : Change} (hc : c.source? = some source)
    (hd : s.pending source.parts = some d) (ho : d.source? = some o)
    (hp : (s.subsume c).1.pending o.parts = none) : (s.subsume c).2 = .renamed o c.path := by
  have horigin : s.origin? c = some o := by simp [origin?, hc, hd, ho]
  rw [snd_subsume h, horigin]
  simp [hp]

theorem merged_of_source {source : Path} (hc : c.source? = some source) :
    s.merged c = (s.subsume c).2 := by
  have hsome : ∃ o, (s.subsume c).2.source? = some o := by
    rcases snd_subsume_cases h c with he | ⟨-, -, o, -, -, -, -, he⟩
    · exact ⟨source, by rw [he, hc]⟩
    · exact ⟨o, by rw [he]; rfl⟩
  obtain ⟨o, ho⟩ := hsome
  unfold merged
  cases (s.subsume c).1.pending c.path.parts with
  | none => rfl
  | some q => exact q.merge_of_isSome_source? ho

/-- A pending change of another path stays, unless it is at the place that a rename leaves. -/
theorem pending_push_of_ne {k' : List Part} {d : Change} (hne : c.path.parts ≠ k')
    (hd : (s.subsume c).1.pending k' = some d) : (s.push c).pending k' = some d := by
  obtain ⟨-, ⟨-, hpush⟩ | ⟨q, o, -, -, -, hnone, hpush⟩⟩ := pending_push h c
  · rw [hpush, if_neg hne, hd]
  · rw [hpush, if_neg hne, hd]
    split
    · rename_i ho
      rw [ho, hd] at hnone
      cases hnone
    · rfl

theorem names_push_of_source {q : Change} (hq : (s.subsume c).1.pending c.path.parts = some q)
    (hs : q.sourceKey? = some k) : (s.push c).Names k := by
  obtain ⟨o, ho, rfl⟩ := Option.map_eq_some_iff.1 hs
  obtain ⟨-, ⟨hall, hpush⟩ | ⟨q', o', hq', ho', hne, -, hpush⟩⟩ := pending_push h c
  · rcases hall q o hq ho with hkept | hpath | hpend
    · exact .inr ⟨_, s.merged c, by rw [hpush, if_pos rfl], Change.any_source?_same.1 hkept⟩
    · exact .inl ⟨s.merged c, by rw [hpush, if_pos hpath.symm]⟩
    · obtain ⟨d, hd⟩ := Option.isSome_iff_exists.1 hpend
      by_cases hp : c.path.parts = o.parts
      · exact .inl ⟨s.merged c, by rw [hpush, if_pos hp]⟩
      · exact .inl ⟨d, by rw [hpush, if_neg hp, hd]⟩
  · obtain rfl : q' = q := Option.some.inj (hq'.symm.trans hq)
    obtain rfl : o' = o := Option.some.inj (ho'.symm.trans ho)
    exact .inl ⟨.deleted o', by rw [hpush, if_neg (Ne.symm hne), if_pos rfl]⟩

/-- Recording a change names nothing but what was named before and what the change names. -/
theorem names_of_names_push (hn : (s.push c).Names k) (hp : c.path.parts ≠ k)
    (hm : (s.merged c).sourceKey? ≠ some k) :
    (∃ d, (s.subsume c).1.pending k = some d) ∨
      ∃ k' d, (s.subsume c).1.pending k' = some d ∧ d.sourceKey? = some k := by
  obtain ⟨-, ⟨-, hpush⟩ | ⟨q, o, hq, ho, -, -, hpush⟩⟩ := pending_push h c
  · rcases hn with ⟨d, hd⟩ | ⟨k', d, hd, hs⟩
    · rw [hpush, if_neg hp] at hd
      exact .inl ⟨d, hd⟩
    · rw [hpush] at hd
      split at hd
      · cases hd
        exact absurd hs hm
      · exact .inr ⟨k', d, hd, hs⟩
  · rcases hn with ⟨d, hd⟩ | ⟨k', d, hd, hs⟩
    · rw [hpush, if_neg hp] at hd
      split at hd
      · rename_i hok
        exact .inr ⟨_, q, hq, by rw [Change.sourceKey?, ho, Option.map_some, hok]⟩
      · exact .inl ⟨d, hd⟩
    · rw [hpush] at hd
      split at hd
      · cases hd
        exact absurd hs hm
      · split at hd
        · cases hd
          simp [Change.deleted, Change.sourceKey?, Change.source?] at hs
        · exact .inr ⟨k', d, hd, hs⟩

theorem names_push_of_not_names (hp : c.path.parts ≠ k) (hs : c.sourceKey? ≠ some k) :
    (s.push c).Names k ↔ s.Names k := by
  have hsub := pending_subsume h c
  have hk : (s.subsume c).1.pending k = s.pending k := by rw [hsub, if_neg hs]
  constructor
  · intro hn
    by_cases hm : (s.merged c).sourceKey? = some k
    · -- The merged change is the pending one or the newer one, perhaps with an older origin.
      have hnewer : (s.subsume c).2.sourceKey? = some k → s.Names k := by
        intro h1
        rcases snd_subsume_cases h c with he | ⟨source, d, o, -, hd, ho, -, he⟩
        · rw [he] at h1
          exact absurd h1 hs
        · rw [he] at h1
          exact .inr ⟨_, d, hd, by rw [Change.sourceKey?, ho]; exact h1⟩
      unfold merged at hm
      cases hq : (s.subsume c).1.pending c.path.parts with
      | none =>
        rw [hq] at hm
        exact hnewer hm
      | some q =>
        rw [hq, Option.elim_some] at hm
        rcases q.merge_eq_or (s.subsume c).2 with he | he <;> rw [he] at hm
        · rw [hsub] at hq
          split at hq
          · cases hq
          · exact .inr ⟨_, q, hq, hm⟩
        · exact hnewer hm
    · rcases names_of_names_push h c k hn hp hm with ⟨d, hd⟩ | ⟨k', d, hd, hsd⟩
      · exact .inl ⟨d, by rw [← hk, hd]⟩
      · rw [hsub] at hd
        split at hd
        · cases hd
        · exact .inr ⟨k', d, hd, hsd⟩
  · have hpath : ∀ d, s.pending k = some d → (s.push c).Names k := fun d hd =>
      .inl ⟨d, pending_push_of_ne h c hp (hk.trans hd)⟩
    rintro (⟨d, hd⟩ | ⟨k', d, hd, hsd⟩)
    · exact hpath d hd
    · by_cases hc : c.sourceKey? = some k'
      · -- The rename that names the path is the one that the newer rename continues.
        obtain ⟨source, hsource, rfl⟩ := Option.map_eq_some_iff.1 hc
        obtain ⟨o, ho, rfl⟩ := Option.map_eq_some_iff.1 hsd
        cases hpo : s.pending o.parts with
        | some d' => exact hpath d' hpo
        | none =>
          have hsnd := snd_subsume_of_pending h c hsource hd ho (hk.trans hpo)
          refine .inr ⟨_, s.merged c, pending_push_path h c, ?_⟩
          rw [merged_of_source h c hsource, hsnd]
          rfl
      · have hd' : (s.subsume c).1.pending k' = some d := by rw [hsub, if_neg hc, hd]
        by_cases hk' : c.path.parts = k'
        · subst hk'
          exact names_push_of_source h c k hd' hsd
        · exact .inr ⟨k', d, pending_push_of_ne h c hk' hd', hsd⟩

/-- A rename away from a path leaves it named unless it forgets it. -/
theorem names_push_of_leaves {p : Path} (hp : c.path.parts ≠ p.parts)
    (hs : c.sourceKey? = some p.parts) :
    (s.push c).Names p.parts ↔ ¬ forgets s.toList c p = true := by
  have hsub := pending_subsume h c
  obtain ⟨source, hsource, hkey⟩ := Option.map_eq_some_iff.1 hs
  have hmerged := merged_of_source h c hsource
  have hpush := pending_push_path h c
  rw [forgets_toList_iff h]
  constructor
  · rintro hn ⟨-, hothers, d, o, hd, ho, hne, hno⟩
    have hm : (s.merged c).sourceKey? ≠ some p.parts := by
      have hgone : (s.subsume c).1.pending o.parts = none := by
        rw [hsub]
        split <;> simp [hno]
      rw [hmerged, snd_subsume_of_pending h c hsource (hkey ▸ hd) ho hgone]
      simpa [Change.renamed, Change.sourceKey?, Change.source?] using hne
    rcases names_of_names_push h c _ hn hp hm with ⟨d', hd'⟩ | ⟨k', d', hd', hs'⟩
    · rw [hsub, if_pos hs] at hd'
      cases hd'
    · rw [hsub] at hd'
      split at hd'
      · cases hd'
      · rename_i hk'
        exact hk' (by rw [hs, hothers k' d' hd' hs'])
  · intro hnot
    by_cases hm : (s.merged c).sourceKey? = some p.parts
    · exact .inr ⟨_, _, hpush, hm⟩
    · -- The rename went back to a third place, so another pending rename leaves the path.
      rw [hmerged] at hm
      rcases snd_subsume_cases h c with he | ⟨source', d, o, hsource', hd, ho, hno, he⟩
      · rw [he] at hm
        exact absurd hs hm
      · obtain rfl : source' = source := Option.some.inj (hsource'.symm.trans hsource)
        rw [hkey] at hd
        have hne : o.parts ≠ p.parts := by
          rw [he] at hm
          simpa [Change.renamed, Change.sourceKey?, Change.source?] using hm
        have hno' : s.pending o.parts = none := by
          rw [hsub, if_neg (by rw [hs]; simpa using Ne.symm hne)] at hno
          exact hno
        obtain ⟨k', d', hd', hs', hk'⟩ : ∃ k' d', s.pending k' = some d' ∧
            d'.sourceKey? = some p.parts ∧ k' ≠ p.parts := by
          apply Classical.byContradiction
          intro hall
          refine hnot ⟨⟨hp, hs⟩, fun k' d' hd' hs' => ?_, d, o, hd, ho, hne, hno'⟩
          apply Classical.byContradiction
          exact fun hk' => hall ⟨k', d', hd', hs', hk'⟩
        have hd1 : (s.subsume c).1.pending k' = some d' := by
          rw [hsub, if_neg (by rw [hs]; simpa using Ne.symm hk'), hd']
        by_cases hck : c.path.parts = k'
        · subst hck
          exact names_push_of_source h c _ hd1 hs'
        · exact .inr ⟨k', d', pending_push_of_ne h c hck hd1, hs'⟩

/-- **What one change does to the names.** -/
theorem any_names_push {p : Path} :
    (s.push c).toList.any (·.names p) = true ↔
      if c.names p then ¬ forgets s.toList c p = true else s.toList.any (·.names p) = true := by
  rw [any_toList_names (indexed_push h c)]
  split
  · rename_i hn
    by_cases hp : c.path.parts = p.parts
    · have hnot : ¬ forgets s.toList c p = true := by
        rw [forgets_toList_iff h]
        exact fun hf => hf.1.1 hp
      refine ⟨fun _ => hnot, fun _ => .inl ⟨s.merged c, ?_⟩⟩
      rw [← hp, pending_push_path h c]
    · exact names_push_of_leaves h c hp ((Change.names_iff.1 hn).resolve_left hp)
  · rename_i hn
    rw [Change.names_iff, not_or] at hn
    rw [any_toList_names h]
    exact names_push_of_not_names h c _ hn.1 hn.2

end Push

end ChangeSet

/-! ## Whole lists -/

/-- Whether the last change of a list that names a path is a rename that forgets it. -/
def LastForgets (changes : List Change) (p : Path) : Prop :=
  ∃ before c after, changes = before ++ c :: after ∧ (∀ d ∈ after, d.names p = false) ∧
    forgets (settle before) c p = true

theorem settle_append (changes : List Change) (c : Change) :
    settle (changes ++ [c]) = ((ChangeSet.ofList changes).push c).toList := by
  rw [settle, ChangeSet.ofList, List.foldl_append]
  rfl

theorem settle_ne_nil {changes : List Change} (h : changes ≠ []) : settle changes ≠ [] := by
  cases changes using List.reverseRecOn with
  | nil => exact absurd rfl h
  | append_singleton before c =>
    rw [settle_append]
    exact ChangeSet.toList_push_ne_nil (ChangeSet.indexed_ofList before) c

theorem names_of_forgets {pending : List Change} {c : Change} {p : Path}
    (h : forgets pending c p = true) : c.names p = true := by
  rw [forgets, Bool.and_eq_true, Bool.and_eq_true] at h
  exact Change.names_iff.2 (.inr (Change.leaves_iff.1 h.1.1).2)

theorem lastForgets_append {changes : List Change} {c : Change} {p : Path} :
    LastForgets (changes ++ [c]) p ↔
      if c.names p then forgets (settle changes) c p = true else LastForgets changes p := by
  constructor
  · rintro ⟨before, d, after, heq, hafter, hf⟩
    rcases List.eq_nil_or_concat after with rfl | ⟨after, d', rfl⟩
    · obtain ⟨rfl, hd⟩ := List.append_inj' heq rfl
      cases hd
      rwa [if_pos (names_of_forgets hf)]
    · rw [List.concat_eq_append, ← List.cons_append, ← List.append_assoc] at heq
      obtain ⟨rfl, hd⟩ := List.append_inj' heq rfl
      cases hd
      have hc : c.names p = false := hafter c (by simp)
      rw [if_neg (by simp [hc])]
      exact ⟨before, d, after, rfl, fun x hx => hafter x (by simp [hx]), hf⟩
  · split
    · intro hf
      exact ⟨changes, c, [], rfl, by simp, hf⟩
    · rename_i hc
      rintro ⟨before, d, after, rfl, hafter, hf⟩
      refine ⟨before, d, after ++ [c], by simp, fun x hx => ?_, hf⟩
      rcases List.mem_append.1 hx with hx | hx
      · exact hafter x hx
      · rw [List.mem_singleton.1 hx]
        simpa using hc

/-- The settled list names the paths that some change names, but for those that the last such
change forgets. -/
theorem any_names_settle (changes : List Change) (p : Path) :
    (settle changes).any (·.names p) = true ↔
      changes.any (·.names p) = true ∧ ¬ LastForgets changes p := by
  -- The induction takes the newest change off the end, as `settle` records it last.
  induction changes using List.reverseRecOn with
  | nil =>
    have : settle [] = [] := rfl
    simp [this]
  | append_singleton changes c ih =>
    have hi := ChangeSet.indexed_ofList changes
    rw [settle_append, ChangeSet.any_names_push hi, lastForgets_append]
    change (if c.names p then ¬ forgets (settle changes) c p = true
      else (settle changes).any (·.names p) = true) ↔ _
    by_cases hc : c.names p = true
    · simp [hc]
    · rw [if_neg hc, if_neg hc, ih]
      simp [hc]

/-- **Which stale paths a settled list still names.** A path whose first mention says that there may
be data of it from before is named by the settled list, unless the last change that names it is a
rename that forgets it. -/
theorem settle_names_iff_not_forgets (changes : List Change) (p : Path)
    (h : (changes.find? (·.names p)).any (·.marksStale p) = true) :
    (settle changes).any (·.names p) = true ↔ ¬ LastForgets changes p := by
  have hmention : changes.any (·.names p) = true := by
    cases hf : changes.find? (·.names p) with
    | none => simp [hf] at h
    | some c =>
      have hc : c.names p = true := by simpa using List.find?_some hf
      exact List.any_eq_true.2 ⟨c, List.mem_of_find?_eq_some hf, hc⟩
  rw [any_names_settle, and_iff_right hmention]

/-- A file is deleted, another takes its place, and that one moves on. -/
def movedThrough : List Change :=
  [.deleted ⟨"a.cs"⟩, .renamed ⟨"b.cs"⟩ ⟨"a.cs"⟩, .renamed ⟨"a.cs"⟩ ⟨"c.cs"⟩]

/-- The place between is named exactly if no rename forgets it. -/
theorem settle_movedThrough_names_iff :
    (movedThrough.find? (·.names ⟨"a.cs"⟩)).any (·.marksStale ⟨"a.cs"⟩) = true ∧
    ((settle movedThrough).any (·.names ⟨"a.cs"⟩) = true ↔
      ¬ LastForgets movedThrough ⟨"a.cs"⟩) :=
  ⟨by decide +kernel, settle_names_iff_not_forgets _ _ (by decide +kernel)⟩

/-- The deletion is lost: the settled list is the one rename from `b.cs` to `c.cs`. -/
theorem settle_movedThrough_forgets :
    ¬ ∀ (changes : List Change) (p : Path),
      (changes.find? (·.names p)).any (·.marksStale p) = true →
        (settle changes).any (·.names p) = true := by
  intro hall
  have := hall movedThrough ⟨"a.cs"⟩ (by decide +kernel)
  revert this
  decide +kernel

end CodeGraph
