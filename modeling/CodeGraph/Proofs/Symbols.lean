import CodeGraph.Graph.Symbols
import CodeGraph.Proofs.Index
import Mathlib.Data.List.Induction
import Mathlib.Logic.Function.Basic

/-!
# The file that declared a key last

A key should belong to the file that declared it last, and go only with that file. The table keeps
the keys of each file apart from the keys' declarations, so a file that declared a key earlier still
takes it along when it goes.

* `Symbols.Operation`, `Symbols.run`: sequences of operations.
* `Symbols.Operation.replay`, `Symbols.entries`: the same sequence on a plain map from keys to a
  declaration and the file that declared it.
* `Symbols.Claims`, `Symbols.Owns`: the files that take a key along when they go, and the one that
  should.
* `Symbols.Lost`: the keys that went with a file they no longer belonged to.
* **`Symbols.run_agrees_iff_not_lost`**: a look-up agrees with the plain map unless the key is lost.
-/

namespace CodeGraph

open Std

/-! ## Something happened, and something held ever since -/

/-- Some member of a list comes after a beginning as `P` says, and all later ones are as `Q` says. -/
def Since {α : Type} (P : List α → α → Prop) (Q : α → Prop) (l : List α) : Prop :=
  ∃ before a after, l = before ++ a :: after ∧ P before a ∧ ∀ b ∈ after, Q b

theorem not_since_nil {α : Type} (P : List α → α → Prop) (Q : α → Prop) : ¬ Since P Q [] := by
  rintro ⟨before, a, after, heq, -⟩
  simp at heq

theorem since_concat {α : Type} {P : List α → α → Prop} {Q : α → Prop} {l : List α} {c : α} :
    Since P Q (l ++ [c]) ↔ P l c ∨ Since P Q l ∧ Q c := by
  constructor
  · rintro ⟨before, a, after, heq, hP, hQ⟩
    rcases List.eq_nil_or_concat after with rfl | ⟨after, b, rfl⟩
    · obtain ⟨rfl, ha⟩ := List.append_inj' heq rfl
      cases ha
      exact .inl hP
    · rw [List.concat_eq_append, ← List.cons_append, ← List.append_assoc] at heq
      obtain ⟨rfl, hb⟩ := List.append_inj' heq rfl
      cases hb
      exact .inr ⟨⟨before, a, after, rfl, hP, fun b hb => hQ b (by simp [hb])⟩, hQ c (by simp)⟩
  · rintro (hP | ⟨⟨before, a, after, rfl, hP, hQ⟩, hc⟩)
    · exact ⟨l, c, [], rfl, hP, by simp⟩
    · refine ⟨before, a, after ++ [c], by simp, hP, fun b hb => ?_⟩
      rcases List.mem_append.1 hb with hb | hb
      · exact hQ b hb
      · rwa [List.mem_singleton.1 hb]

namespace Symbols

/-! ## Sequences of operations -/

/-- A change of the table. -/
inductive Operation where
  | insert (key : String) (id : NodeId) (file : Path)
  | merge (mappings : List (String × NodeId)) (file : Path)
  | removeFile (file : Path)
  | clear

/-- The table after an operation. -/
def Operation.apply (s : Symbols) : Operation → Symbols
  | insert key id file => s.insert key id file
  | merge mappings file => s.merge mappings file
  | removeFile file => s.removeFile file
  | clear => empty

/-- The table after operations in order. -/
def run (ops : List Operation) : Symbols := ops.foldl Operation.apply empty

/-- The declaration of each key, with the file that declared it, by its parts. -/
abbrev Entries := String → Option (NodeId × List Part)

/-- The entries after an operation: an insertion overwrites the entry of its key, and a file goes
with its own entries only. -/
def Operation.replay (m : Entries) : Operation → Entries
  | insert key id file => Function.update m key (some (id, file.parts))
  | merge mappings file =>
    mappings.foldl (fun m x => Function.update m x.1 (some (x.2, file.parts))) m
  | removeFile file => fun key => (m key).filter fun e => e.2 ≠ file.parts
  | clear => fun _ => none

/-- The entries after operations in order. -/
def entries (ops : List Operation) : Entries := ops.foldl Operation.replay fun _ => none

/-! ## What one operation does to a key -/

namespace Operation

/-- What an operation writes for a key, and from which file. -/
def written? (key : String) : Operation → Option (NodeId × List Part)
  | insert k id file => if k = key then some (id, file.parts) else none
  | merge mappings file =>
    (mappings.reverse.find? (·.1 == key)).map fun x => (x.2, file.parts)
  | removeFile _ | clear => none

/-- Whether a file goes with an operation. -/
def Drops (file : List Part) : Operation → Prop
  | insert .. | merge .. => False
  | removeFile f => f.parts = file
  | clear => True

instance (file : List Part) : (o : Operation) → Decidable (o.Drops file)
  | insert .. | merge .. => inferInstanceAs (Decidable False)
  | removeFile f => inferInstanceAs (Decidable (f.parts = file))
  | clear => inferInstanceAs (Decidable True)

theorem replay_eq (m : Entries) (o : Operation) (key : String) :
    o.replay m key = (o.written? key).or ((m key).filter fun e => ¬ o.Drops e.2) := by
  have hkeep : ∀ e : Option (NodeId × List Part), (e.filter fun _ => true) = e := by
    intro e
    cases e <;> rfl
  cases o with
  | insert k id file =>
    by_cases h : k = key
    · simp [replay, written?, h]
    · simp [replay, written?, Drops, h, Ne.symm h, hkeep]
  | merge mappings file =>
    simp only [replay, written?, Drops, not_false_eq_true, decide_true, hkeep]
    induction mappings generalizing m with
    | nil => simp
    | cons x mappings ih =>
      rw [List.foldl_cons, ih, List.reverse_cons, List.find?_append, Option.map_or, Option.or_assoc]
      by_cases h : x.1 = key
      · simp [h]
      · simp [h, Ne.symm h]
  | removeFile file => simp [replay, written?, Drops, eq_comm]
  | clear => simp [replay, written?, Drops]

end Operation

theorem keysOf_insert (s : Symbols) (key : String) (id : NodeId) (file f : Path) {k : String} :
    k ∈ (s.insert key id file).keysOf f ↔
      (k = key ∧ f.parts = file.parts) ∨ k ∈ s.keysOf f := by
  have hkeys : (s.insert key id file).keysOf f = if file.parts = f.parts then
      (if (s.keysOf file).contains key then s.keysOf file else s.keysOf file ++ [key])
      else s.keysOf f := by
    unfold keysOf insert
    simp only [ExtTreeMap.getElem?_insert, LawfulEqCmp.compare_eq_iff_eq]
    split <;> rfl
  rw [hkeys]
  by_cases hf : file.parts = f.parts
  · have hsame : s.keysOf f = s.keysOf file := by rw [keysOf, keysOf, hf]
    rw [if_pos hf, hsame]
    split
    · next hmem =>
      rw [List.contains_iff_mem] at hmem
      constructor
      · exact .inr
      · rintro (⟨rfl, -⟩ | hk)
        · exact hmem
        · exact hk
    · simp [hf, or_comm]
  · simp [hf, Ne.symm hf]

theorem lookup?_insert (s : Symbols) (key : String) (id : NodeId) (file : Path) (k : String) :
    (s.insert key id file).lookup? k = if key = k then some id else s.lookup? k := by
  simp [lookup?, insert, ExtTreeMap.getElem?_insert]

section Merge

variable (s : Symbols) (mappings : List (String × NodeId)) (file : Path)

theorem keysOf_merge (f : Path) {k : String} :
    k ∈ (s.merge mappings file).keysOf f ↔
      (k ∈ mappings.map Prod.fst ∧ f.parts = file.parts) ∨ k ∈ s.keysOf f := by
  unfold merge
  induction mappings generalizing s with
  | nil => simp
  | cons x mappings ih =>
    rw [List.foldl_cons, ih, keysOf_insert, List.map_cons, List.mem_cons, or_and_right, ← or_assoc,
      or_comm (a := k = x.1 ∧ _)]

theorem lookup?_merge (k : String) :
    (s.merge mappings file).lookup? k =
      ((mappings.reverse.find? (·.1 == k)).map Prod.snd).or (s.lookup? k) := by
  unfold merge
  induction mappings generalizing s with
  | nil => simp
  | cons x mappings ih =>
    rw [List.foldl_cons, ih, lookup?_insert, List.reverse_cons, List.find?_append, Option.map_or,
      Option.or_assoc]
    by_cases h : x.1 = k <;> simp [h]

end Merge

theorem keysOf_removeFile (s : Symbols) (file f : Path) :
    (s.removeFile file).keysOf f = if file.parts = f.parts then [] else s.keysOf f := by
  unfold keysOf removeFile
  simp only [ExtTreeMap.getElem?_erase, LawfulEqCmp.compare_eq_iff_eq]
  split <;> rfl

theorem lookup?_removeFile (s : Symbols) (file : Path) (k : String) :
    (s.removeFile file).lookup? k = if k ∈ s.keysOf file then none else s.lookup? k :=
  getElem?_foldl_erase (s.keysOf file) s.ids k

namespace Operation

theorem exists_written?_merge {mappings : List (String × NodeId)} {file : Path} {key : String}
    {f : List Part} : (∃ id, written? key (merge mappings file) = some (id, f)) ↔
      key ∈ mappings.map Prod.fst ∧ f = file.parts := by
  simp only [written?, Option.map_eq_some_iff, Prod.mk.injEq]
  constructor
  · rintro ⟨id, x, hx, -, rfl⟩
    have hkey : x.1 = key := by simpa using List.find?_some hx
    exact ⟨List.mem_map.2 ⟨x, List.mem_reverse.1 (List.mem_of_find?_eq_some hx), hkey⟩, rfl⟩
  · rintro ⟨hmem, rfl⟩
    obtain ⟨x, hx, rfl⟩ := List.mem_map.1 hmem
    have hfound : (mappings.reverse.find? (·.1 == x.1)).isSome = true :=
      List.find?_isSome.2 ⟨x, List.mem_reverse.2 hx, by simp⟩
    obtain ⟨y, hy⟩ := Option.isSome_iff_exists.1 hfound
    exact ⟨y.2, y, hy, rfl, rfl⟩

theorem mem_keysOf_apply (s : Symbols) (o : Operation) (f : Path) {key : String} :
    key ∈ (o.apply s).keysOf f ↔
      (∃ id, o.written? key = some (id, f.parts)) ∨ key ∈ s.keysOf f ∧ ¬ o.Drops f.parts := by
  cases o with
  | insert k id file =>
    rw [apply, keysOf_insert]
    by_cases h : k = key
    · simp [written?, Drops, h, eq_comm]
    · simp [written?, Drops, h, Ne.symm h]
  | merge mappings file =>
    rw [apply, keysOf_merge, exists_written?_merge]
    simp [Drops]
  | removeFile file =>
    rw [apply, keysOf_removeFile]
    by_cases h : file.parts = f.parts <;> simp [written?, Drops, h]
  | clear => simp [apply, written?, Drops, empty, keysOf]

/-- Whether an operation takes a key out of the table. -/
def Takes (s : Symbols) (key : String) : Operation → Prop
  | insert .. | merge .. => False
  | removeFile file => key ∈ s.keysOf file
  | clear => True

instance (s : Symbols) (key : String) : (o : Operation) → Decidable (o.Takes s key)
  | insert .. | merge .. => inferInstanceAs (Decidable False)
  | removeFile file => inferInstanceAs (Decidable (key ∈ s.keysOf file))
  | clear => inferInstanceAs (Decidable True)

theorem lookup?_apply (s : Symbols) (o : Operation) (key : String) :
    (o.apply s).lookup? key =
      ((o.written? key).map Prod.fst).or (if o.Takes s key then none else s.lookup? key) := by
  cases o with
  | insert k id file =>
    rw [apply, lookup?_insert]
    by_cases h : k = key <;> simp [written?, Takes, h]
  | merge mappings file =>
    rw [apply, lookup?_merge]
    simp [written?, Takes, Function.comp_def]
  | removeFile file =>
    rw [apply, lookup?_removeFile]
    rfl
  | clear => simp [apply, written?, Takes, empty, lookup?]

end Operation

/-! ## Keys that are lost -/

/-- Whether a file declared a key and has not gone since, so that it takes the key along. -/
def Claims (ops : List Operation) (file : List Part) (key : String) : Prop :=
  Since (fun _ o => ∃ id, o.written? key = some (id, file)) (fun o => ¬ o.Drops file) ops

/-- Whether the last file that declared a key has not gone since. -/
def Owns (ops : List Operation) (owner : List Part) (key : String) : Prop :=
  ∃ id, entries ops key = some (id, owner)

/-- Whether an operation removes a file that takes along a key of another one. -/
def Snatches (before : List Operation) (owner : List Part) (key : String) (o : Operation) : Prop :=
  ∃ file : Path, o = .removeFile file ∧ file.parts ≠ owner ∧ Owns before owner key ∧
    Claims before file.parts key

/-- Whether a key of a file was taken along by another one, and since then its owner has not gone
and nobody has declared it again. -/
def Lost (ops : List Operation) (owner : List Part) (key : String) : Prop :=
  Since (fun before o => Snatches before owner key o)
    (fun o => ¬ o.Drops owner ∧ o.written? key = none) ops

theorem run_concat (ops : List Operation) (o : Operation) :
    run (ops ++ [o]) = o.apply (run ops) := by
  rw [run, List.foldl_append]
  rfl

theorem entries_concat (ops : List Operation) (o : Operation) (key : String) :
    entries (ops ++ [o]) key =
      (o.written? key).or ((entries ops key).filter fun e => ¬ o.Drops e.2) := by
  rw [entries, List.foldl_append]
  exact o.replay_eq _ key

theorem mem_keysOf_run (ops : List Operation) (file : Path) (key : String) :
    key ∈ (run ops).keysOf file ↔ Claims ops file.parts key := by
  induction ops using List.reverseRecOn with
  | nil => exact iff_of_false (by simp [run, empty, keysOf]) (not_since_nil _ _)
  | append_singleton ops o ih =>
    rw [run_concat, Operation.mem_keysOf_apply, ih, Claims, Claims, since_concat]

theorem Owns.concat {ops : List Operation} {o : Operation} {owner : List Part} {key : String}
    (h : Owns ops owner key) (ho : ¬ o.Drops owner) (hw : o.written? key = none) :
    Owns (ops ++ [o]) owner key := by
  obtain ⟨id, he⟩ := h
  exact ⟨id, by simp [entries_concat, hw, he, ho]⟩

theorem Owns.claims {ops : List Operation} {owner : List Part} {key : String}
    (h : Owns ops owner key) : Claims ops owner key := by
  induction ops using List.reverseRecOn with
  | nil => simp [Owns, entries] at h
  | append_singleton ops o ih =>
    obtain ⟨id, he⟩ := h
    rw [entries_concat, Option.or_eq_some_iff] at he
    rw [Claims, since_concat]
    rcases he with hw | ⟨-, he⟩
    · exact .inl ⟨id, hw⟩
    · rw [Option.filter_eq_some_iff] at he
      exact .inr ⟨ih ⟨id, he.1⟩, by simpa using he.2⟩

theorem Lost.owns {ops : List Operation} {owner : List Part} {key : String}
    (h : Lost ops owner key) : Owns ops owner key := by
  induction ops using List.reverseRecOn with
  | nil => exact absurd h (not_since_nil _ _)
  | append_singleton ops o ih =>
    rw [Lost, since_concat] at h
    rcases h with ⟨file, rfl, hne, howns, -⟩ | ⟨hlost, hdrops, hwritten⟩
    · exact howns.concat hne rfl
    · exact (ih hlost).concat hdrops hwritten

theorem Operation.takes_iff {ops : List Operation} {owner : List Part} {key : String}
    (h : Owns ops owner key) (o : Operation) :
    o.Takes (run ops) key ↔ o.Drops owner ∨ Snatches ops owner key o := by
  cases o with
  | insert k id file => simp [Takes, Drops, Snatches]
  | merge mappings file => simp [Takes, Drops, Snatches]
  | removeFile file =>
    rw [Takes, mem_keysOf_run, Drops]
    by_cases hf : file.parts = owner
    · subst hf
      exact iff_of_true h.claims (.inl rfl)
    · constructor
      · exact fun hclaims => .inr ⟨file, rfl, hf, h, hclaims⟩
      · rintro (he | ⟨f, he, -, -, hclaims⟩)
        · exact absurd he hf
        · cases he
          exact hclaims
  | clear => simp [Takes, Drops]

/-- A look-up finds the entry of a key that is not lost, and nothing for one that is. -/
theorem lookup?_run (ops : List Operation) (key : String) (id : NodeId) :
    (run ops).lookup? key = some id ↔
      ∃ owner, entries ops key = some (id, owner) ∧ ¬ Lost ops owner key := by
  induction ops using List.reverseRecOn with
  | nil => simp [run, empty, lookup?, entries]
  | append_singleton ops o ih =>
    rw [run_concat, Operation.lookup?_apply]
    simp only [entries_concat, Lost, since_concat]
    cases hw : o.written? key with
    | some e =>
      -- A key that is declared anew is not lost.
      have hfresh : ∀ owner, ¬ Snatches ops owner key o := by
        rintro owner ⟨file, rfl, -⟩
        simp [Operation.written?] at hw
      simp [hfresh, Prod.ext_iff]
    | none =>
      rw [Option.map_none, Option.none_or, Option.ite_none_left_eq_some, ih]
      simp only [Option.none_or, Option.filter_eq_some_iff, decide_eq_true_eq, and_true,
        ← exists_and_left]
      refine exists_congr fun owner => ?_
      constructor
      · rintro ⟨htakes, he, hlost⟩
        rw [Operation.takes_iff ⟨id, he⟩, not_or] at htakes
        exact ⟨⟨he, htakes.1⟩, fun h => h.elim htakes.2 fun h => hlost h.1⟩
      · rintro ⟨⟨he, hdrops⟩, hlost⟩
        rw [Operation.takes_iff ⟨id, he⟩, not_or]
        exact ⟨⟨hdrops, fun h => hlost (.inl h)⟩, he, fun h => hlost (.inr ⟨h, hdrops⟩)⟩

/-- **A look-up finds what the last file declared, unless the key is lost**: unless it went with
another file, which had declared it earlier. -/
theorem run_agrees_iff_not_lost (ops : List Operation) (key : String) :
    (run ops).lookup? key = (entries ops key).map Prod.fst ↔
      ∀ owner, ¬ Lost ops owner key := by
  constructor
  · intro h owner hlost
    obtain ⟨id, he⟩ := hlost.owns
    rw [he, Option.map_some, lookup?_run] at h
    obtain ⟨owner', he', hlost'⟩ := h
    rw [he] at he'
    cases he'
    exact hlost' hlost
  · intro h
    ext id
    rw [lookup?_run]
    simp [h]

/-- A declaration moves to another file, which is read before its old file goes. -/
def movedKey : List Operation :=
  [.insert "T:Ns.A" "A" ⟨"a.cs"⟩, .merge [("T:Ns.A", "A")] ⟨"b.cs"⟩, .removeFile ⟨"a.cs"⟩]

theorem movedKey_forgotten : (run movedKey).lookup? "T:Ns.A" = none ∧
    entries movedKey "T:Ns.A" = some ("A", [.name "b.cs"]) := by
  decide +kernel

end Symbols

end CodeGraph
