import CodeGraph.ProjectRoot
import CodeGraph.Proofs.Disk

/-!
# Paths as seen from the root

The text of resolved parts reads as these parts, so nothing is left to resolve in a path as seen
from the root.

* `Part.Legible`, `Path.parts_eq`, `Path.parts_ofParts`: parts and their text.
* `Path.Resolved`: the parts that are left after `.` and `..` were resolved.
* **`ProjectRoot.relative_relative`**: a path as seen from the root is seen as itself.
-/

namespace CodeGraph

/-! ## Parts and their text -/

theorem slash_not_mem_of_mem_splitSlash {cs s : List Char} (hs : s ∈ splitSlash cs) : '/' ∉ s := by
  induction cs generalizing s with
  | nil =>
    obtain rfl : s = [] := by simpa [splitSlash] using hs
    simp
  | cons c cs ih =>
    by_cases hc : c = '/'
    · subst hc
      rw [splitSlash, List.mem_cons] at hs
      rcases hs with rfl | hs
      · simp
      · exact ih hs
    · obtain ⟨first, rest, hsplit⟩ := List.exists_cons_of_ne_nil (splitSlash_ne_nil cs)
      rw [splitSlash_cons hc hsplit, List.mem_cons] at hs
      rw [hsplit] at ih
      rcases hs with rfl | hs
      · have hfirst : '/' ∉ first := ih List.mem_cons_self
        simp [hfirst, Ne.symm hc]
      · exact ih (List.mem_cons_of_mem _ hs)

theorem splitSlash_intercalate {segments : List (List Char)} (hne : segments ≠ [])
    (h : ∀ s ∈ segments, '/' ∉ s) : splitSlash (['/'].intercalate segments) = segments := by
  induction segments with
  | nil => exact absurd rfl hne
  | cons s segments ih =>
    have hs := splitSlash_of_not_mem (h s List.mem_cons_self)
    cases segments with
    | nil => rw [List.intercalate_singleton, hs]
    | cons s' segments =>
      rw [List.intercalate_cons_cons, List.append_assoc, List.singleton_append,
        splitSlash_append_slash, hs, ih (by simp) fun s hs => h s (List.mem_cons_of_mem _ hs)]
      rfl

namespace Part

/-- A part that can stand between two slashes. -/
def Legible (part : Part) : Prop :=
  '/' ∉ part.text.toList ∧ ofSegment? part.text.toList = some part

theorem legible_up : Legible .up := ⟨by decide, by decide⟩

theorem not_legible_root : ¬ Legible .root := fun h => h.1 (by decide)

theorem not_legible_here : ¬ Legible .here := fun h => absurd h.2 (by decide)

theorem legible_of_ofSegment? {s : List Char} {part : Part} (hs : '/' ∉ s)
    (h : ofSegment? s = some part) : part.Legible := by
  unfold ofSegment? at h
  split at h
  · cases h
  · cases h
  · obtain rfl := Option.some.inj h
    exact legible_up
  · next hnil hdot hup =>
    obtain rfl := Option.some.inj h
    refine ⟨by simpa [text] using hs, ?_⟩
    simp [text, ofSegment?]

end Part

namespace Path

open CodeGraph.Part

theorem legible_of_mem_filterMap {segments : List (List Char)} (h : ∀ s ∈ segments, '/' ∉ s)
    {part : Part} (hpart : part ∈ segments.filterMap ofSegment?) : part.Legible := by
  obtain ⟨s, hs, hsegment⟩ := List.mem_filterMap.1 hpart
  exact legible_of_ofSegment? (h s hs) hsegment

theorem parts_eq (p : Path) : ∃ first rest, p.parts = first ++ rest ∧
    first ∈ [[], [.root], [.here]] ∧ ∀ part ∈ rest, part.Legible := by
  have hslash : ∀ s ∈ splitSlash p.text.toList, '/' ∉ s :=
    fun s => slash_not_mem_of_mem_splitSlash
  unfold parts
  split
  · exact ⟨[], [], rfl, by simp, by simp⟩
  · exact ⟨[], [], rfl, by simp, by simp⟩
  · next rest _ heq =>
    rw [heq] at hslash
    exact ⟨[.root], _, rfl, by simp, fun part =>
      legible_of_mem_filterMap fun s hs => hslash s (List.mem_cons_of_mem _ hs)⟩
  · next rest heq =>
    rw [heq] at hslash
    exact ⟨[.here], _, rfl, by simp, fun part =>
      legible_of_mem_filterMap fun s hs => hslash s (List.mem_cons_of_mem _ hs)⟩
  · exact ⟨[], _, rfl, by simp, fun part => legible_of_mem_filterMap hslash⟩

theorem filterMap_ofSegment? {ps : List Part} (h : ∀ part ∈ ps, part.Legible) :
    (ps.map (·.text.toList)).filterMap ofSegment? = ps := by
  induction ps with
  | nil => rfl
  | cons part ps ih =>
    rw [List.map_cons, List.filterMap_cons_some (h part List.mem_cons_self).2,
      ih fun part hpart => h part (List.mem_cons_of_mem _ hpart)]

theorem splitSlash_text {ps : List Part} (hne : ps ≠ []) (h : ∀ part ∈ ps, part.Legible) :
    splitSlash (String.intercalate "/" (ps.map Part.text)).toList = ps.map (·.text.toList) := by
  rw [String.toList_intercalate, List.map_map]
  refine splitSlash_intercalate (by simpa using hne) fun s hs => ?_
  obtain ⟨part, hpart, rfl⟩ := List.mem_map.1 hs
  exact (h part hpart).1

theorem parts_ofParts_root {ps : List Part} (h : ∀ part ∈ ps, part.Legible) :
    (ofParts (.root :: ps)).parts = .root :: ps := by
  have hsplit : splitSlash (ofParts (.root :: ps)).text.toList =
      [] :: splitSlash (String.intercalate "/" (ps.map Part.text)).toList := by
    rw [ofParts, String.toList_append]
    rfl
  unfold parts
  rw [hsplit]
  cases ps with
  | nil => rfl
  | cons part ps =>
    rw [splitSlash_text (by simp) h, List.map_cons]
    exact congrArg (Part.root :: ·) (filterMap_ofSegment? h)

theorem parts_ofParts {ps : List Part} (h : ∀ part ∈ ps, part.Legible) :
    (ofParts ps).parts = ps := by
  cases ps with
  | nil => rfl
  | cons part ps =>
    have hpart := h part List.mem_cons_self
    have htext : ofParts (part :: ps) =
        ⟨String.intercalate "/" ((part :: ps).map Part.text)⟩ := by
      cases part with
      | root => exact absurd hpart not_legible_root
      | here => rfl
      | up => rfl
      | name n => rfl
    unfold parts
    rw [htext, splitSlash_text (by simp) h]
    split
    · next heq => simp at heq
    · next heq =>
      rw [List.map_cons, List.cons.injEq] at heq
      exact absurd hpart.2 (by rw [heq.1]; simp [ofSegment?])
    · next heq =>
      rw [List.map_cons, List.cons.injEq] at heq
      exact absurd hpart.2 (by rw [heq.1]; simp [ofSegment?])
    · next heq =>
      rw [List.map_cons, List.cons.injEq] at heq
      exact absurd hpart.2 (by rw [heq.1]; simp [ofSegment?])
    · exact filterMap_ofSegment? h

theorem isAbsolute_iff {p : Path} : p.isAbsolute = true ↔ .root ∈ p.parts := by
  have hrest : ∀ segments : List (List Char), .root ∉ segments.filterMap ofSegment? := by
    intro segments hmem
    obtain ⟨s, -, hs⟩ := List.mem_filterMap.1 hmem
    unfold ofSegment? at hs
    split at hs <;> simp at hs
  unfold isAbsolute parts
  cases hp : p.text.toList with
  | nil => simp [splitSlash]
  | cons c cs =>
    by_cases hc : c = '/'
    · subst hc
      rw [splitSlash]
      obtain ⟨s, segments, hs⟩ := List.exists_cons_of_ne_nil (splitSlash_ne_nil cs)
      simp [hs]
    · obtain ⟨s, segments, hs⟩ := List.exists_cons_of_ne_nil (splitSlash_ne_nil cs)
      rw [splitSlash_cons hc hs]
      refine iff_of_false (by simpa using hc) ?_
      split
      · simp
      · simp
      · next heq => simp at heq
      · simpa using hrest _
      · exact hrest _

/-! ## Resolved parts -/

/-- The parts that are left after `.` and `..` were resolved, the last first: some names, and below
them one `..` at most and the root. -/
def Resolved (out : List Part) : Prop :=
  ∃ names base, out = names ++ base ∧ base ∈ [[], [.root], [.up], [.up, .root]] ∧
    ∀ part ∈ names, part.Legible ∧ part ≠ .up

theorem Resolved.resolvePart {out : List Part} (h : Resolved out) {part : Part}
    (hpart : part.Legible) : Resolved (resolvePart out part) := by
  obtain ⟨names, base, rfl, hbase, hnames⟩ := h
  cases part with
  | root => exact absurd hpart not_legible_root
  | here => exact absurd hpart not_legible_here
  | up =>
    cases names with
    | nil =>
      simp only [List.mem_cons, List.not_mem_nil, or_false] at hbase
      rcases hbase with rfl | rfl | rfl | rfl <;> exact ⟨[], _, rfl, by simp, by simp⟩
    | cons n names =>
      refine ⟨names, base, ?_, hbase, fun part hp => hnames part (List.mem_cons_of_mem _ hp)⟩
      cases n with
      | root => exact absurd (hnames _ List.mem_cons_self).1 not_legible_root
      | here => rfl
      | up => rfl
      | name n => rfl
  | name n =>
    refine ⟨.name n :: names, base, rfl, hbase, List.forall_mem_cons.2 ⟨⟨hpart, ?_⟩, hnames⟩⟩
    simp

theorem Resolved.foldl {out ps : List Part} (h : Resolved out) (hps : ∀ part ∈ ps, part.Legible) :
    Resolved (ps.foldl Path.resolvePart out) := by
  induction ps generalizing out with
  | nil => exact h
  | cons part ps ih =>
    exact ih (h.resolvePart (hps part List.mem_cons_self))
      fun part hpart => hps part (List.mem_cons_of_mem _ hpart)

theorem resolved_parts (p : Path) : Resolved (p.parts.foldl resolvePart []) := by
  obtain ⟨first, rest, hparts, hfirst, hrest⟩ := p.parts_eq
  rw [hparts, List.foldl_append]
  refine Resolved.foldl ?_ hrest
  simp only [List.mem_cons, List.not_mem_nil, or_false] at hfirst
  rcases hfirst with rfl | rfl | rfl <;> exact ⟨[], _, rfl, by simp, by simp⟩

namespace Resolved

variable {out : List Part} (h : Resolved out)
include h

theorem foldl_reverse : out.reverse.foldl Path.resolvePart [] = out := by
  obtain ⟨names, base, rfl, hbase, hnames⟩ := h
  have hbottom : base.reverse.foldl Path.resolvePart [] = base := by
    simp only [List.mem_cons, List.not_mem_nil, or_false] at hbase
    rcases hbase with rfl | rfl | rfl | rfl <;> rfl
  rw [List.reverse_append, List.foldl_append, hbottom]
  induction names with
  | nil => rfl
  | cons n names ih =>
    rw [List.reverse_cons, List.foldl_append,
      ih fun part hpart => hnames part (List.mem_cons_of_mem _ hpart)]
    cases n with
    | root => rfl
    | here => exact absurd (hnames _ List.mem_cons_self).1 not_legible_here
    | up => exact absurd rfl (hnames _ List.mem_cons_self).2
    | name n => rfl

theorem reverse_eq : (∀ part ∈ out.reverse, part.Legible) ∨
    ∃ ps, out.reverse = .root :: ps ∧ ∀ part ∈ ps, part.Legible := by
  obtain ⟨names, base, rfl, hbase, hnames⟩ := h
  simp only [List.mem_cons, List.not_mem_nil, or_false] at hbase
  rcases hbase with rfl | rfl | rfl | rfl
  · exact .inl fun part hpart => (hnames part (by simpa using hpart)).1
  · exact .inr ⟨names.reverse, by simp, fun part hpart => (hnames part (by simpa using hpart)).1⟩
  · refine .inl fun part hpart => ?_
    rcases (by simpa using hpart : part = .up ∨ part ∈ names) with rfl | hpart
    · exact legible_up
    · exact (hnames part hpart).1
  · refine .inr ⟨.up :: names.reverse, by simp, fun part hpart => ?_⟩
    rcases (by simpa using hpart : part = .up ∨ part ∈ names) with rfl | hpart
    · exact legible_up
    · exact (hnames part hpart).1

theorem parts_ofParts_reverse : (ofParts out.reverse).parts = out.reverse := by
  rcases h.reverse_eq with hps | ⟨ps, heq, hps⟩
  · exact parts_ofParts hps
  · rw [heq]
    exact parts_ofParts_root hps

theorem normalize_ofParts : (ofParts out.reverse).normalize = ofParts out.reverse := by
  rw [normalize, h.parts_ofParts_reverse, h.foldl_reverse]

theorem take (k : Nat) : Resolved (out.take k) := by
  obtain ⟨names, base, rfl, hbase, hnames⟩ := h
  rw [List.take_append]
  refine ⟨names.take k, base.take (k - names.length), rfl, ?_,
    fun part hpart => hnames part (List.mem_of_mem_take hpart)⟩
  generalize k - names.length = m
  simp only [List.mem_cons, List.not_mem_nil, or_false] at hbase
  rcases hbase with rfl | rfl | rfl | rfl <;> rcases m with _ | _ | m <;> simp

theorem take_of_root_mem {k : Nat} (hroot : .root ∈ out.take (out.length - k)) :
    out.take (out.length - k) = out := by
  rw [← List.mem_reverse, ← List.drop_reverse] at hroot
  cases k with
  | zero => exact List.take_length
  | succ k =>
    rcases h.reverse_eq with hps | ⟨ps, heq, hps⟩
    · exact absurd (hps _ (List.mem_of_mem_drop hroot)) not_legible_root
    · rw [heq, List.drop_succ_cons] at hroot
      exact absurd (hps _ (List.mem_of_mem_drop hroot)) not_legible_root

end Resolved

end Path

namespace ProjectRoot

/-- Seen from the root there is a path of resolved parts, which does not go on below the root. -/
theorem relative_eq (root : ProjectRoot) (p : Path) : ∃ out, Path.Resolved out ∧
    root.relative p = .ofParts out.reverse ∧
    (.root ∈ out → ((Path.ofParts out.reverse).below? root.path).getD (.ofParts out.reverse) =
      .ofParts out.reverse) := by
  have h := p.resolved_parts
  have hn : p.normalize = .ofParts (p.parts.foldl Path.resolvePart []).reverse := rfl
  generalize p.parts.foldl Path.resolvePart [] = out at h hn
  have habsolute : (Path.ofParts out.reverse).isAbsolute = true ↔ .root ∈ out := by
    rw [Path.isAbsolute_iff, h.parts_ofParts_reverse, List.mem_reverse]
  by_cases hroot : .root ∈ out
  · cases hbelow : (Path.ofParts out.reverse).below? root.path with
    | none => exact ⟨out, h, by simp [relative, hn, habsolute, hbelow], fun _ => by simp [hbelow]⟩
    | some q =>
      obtain rfl : q = .ofParts (out.take (out.length - root.path.parts.length)).reverse := by
        rw [Path.below?, h.parts_ofParts_reverse, List.drop_reverse] at hbelow
        exact (Option.some.inj (Option.ite_none_right_eq_some.1 hbelow).2).symm
      refine ⟨out.take (out.length - root.path.parts.length), h.take _,
        by simp [relative, hn, habsolute, hroot, hbelow], fun hmem => ?_⟩
      -- The root is the first part, so it is left only if nothing was taken away.
      rw [h.take_of_root_mem hmem] at hbelow ⊢
      rw [hbelow, Option.getD_some]
  · exact ⟨out, h, by simp [relative, hn, habsolute, hroot], fun hmem => absurd hmem hroot⟩

/-- **A path as seen from the root is seen as itself.** -/
theorem relative_relative (root : ProjectRoot) (p : Path) :
    root.relative (root.relative p) = root.relative p := by
  obtain ⟨out, h, hp, hbelow⟩ := root.relative_eq p
  rw [hp]
  simp only [relative, h.normalize_ofParts]
  split
  · next habsolute =>
    rw [Path.isAbsolute_iff, h.parts_ofParts_reverse, List.mem_reverse] at habsolute
    exact hbelow habsolute
  · rfl

end ProjectRoot

end CodeGraph
