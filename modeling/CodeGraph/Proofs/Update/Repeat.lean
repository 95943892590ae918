import CodeGraph.Proofs.Symbols
import CodeGraph.Proofs.Update.Balance

/-!
# A file that is analyzed twice

The second analysis of a file tears down all that the first one built, with the edges of other files
that end in it. If the analyzer finds the same again, all of that comes back: the declarations with
the output, and the edges of other files as both their ends do. An edge that was found in the file
cannot come in between, as an edge that comes back has the last word in both passes.

* `Symbols.removeFile_merge_removeFile`, `References.getElem?_filesOf_renewed`: the symbols and the
  references after a file was analyzed again.
* `Output.Belongs`: an output whose declarations and edges are those of its file.
* `Project.Replaced.closed`, **`Project.Replaced.store_repeat`**: the store after both passes.
* `World.Finds`, `Project.replaced_modified`: a batch in which one file is analyzed again.
* **`Project.Consistent.repeats`**: the main statement.
-/

namespace CodeGraph

open Std

/-! ## The symbols -/

namespace Symbols

/-- A table is determined by its look-ups and the keys of its files. -/
theorem eq_of_lookup? {s t : Symbols} (hids : ∀ k, s.lookup? k = t.lookup? k)
    (hkeys : s.keys = t.keys) : s = t := by
  obtain ⟨ids, keys⟩ := s
  obtain ⟨ids', keys'⟩ := t
  obtain rfl : ids = ids' := ExtTreeMap.ext_getElem? hids
  obtain rfl : keys = keys' := hkeys
  rfl

theorem keys_merge_congr {s t : Symbols} (h : s.keys = t.keys)
    (mappings : List (String × NodeId)) (file : Path) :
    (s.merge mappings file).keys = (t.merge mappings file).keys := by
  unfold merge
  induction mappings generalizing s t with
  | nil => exact h
  | cons m mappings ih =>
    have hinsert : (s.insert m.1 m.2 file).keys = (t.insert m.1 m.2 file).keys := by
      unfold insert keysOf
      rw [h]
    exact ih hinsert

theorem erase_keys_merge (s : Symbols) (mappings : List (String × NodeId)) (file : Path) :
    (s.merge mappings file).keys.erase file.parts = s.keys.erase file.parts := by
  unfold merge
  induction mappings generalizing s with
  | nil => rfl
  | cons m mappings ih =>
    rw [List.foldl_cons, ih]
    refine ExtTreeMap.ext_getElem? fun k => ?_
    simp only [insert, ExtTreeMap.getElem?_erase, ExtTreeMap.getElem?_insert]
    split <;> rfl

/-- A file that declares the same keys again leaves the table as it was. -/
theorem removeFile_merge_removeFile (s : Symbols) (mappings : List (String × NodeId))
    (file : Path) :
    (((s.removeFile file).merge mappings file).removeFile file).merge mappings file =
      (s.removeFile file).merge mappings file := by
  have hids : ∀ k, ((((s.removeFile file).merge mappings file).removeFile file).merge mappings
      file).lookup? k = ((s.removeFile file).merge mappings file).lookup? k := by
    intro k
    rw [lookup?_merge, lookup?_removeFile]
    have hlookup := (s.removeFile file).lookup?_merge mappings file k
    cases hfind : (mappings.reverse.find? (·.1 == k)) with
    | some m =>
      rw [hfind] at hlookup
      rw [hlookup]
      rfl
    | none =>
      have hkey : k ∉ ((s.removeFile file).merge mappings file).keysOf file := by
        rw [keysOf_merge, keysOf_removeFile, if_pos rfl]
        simp only [List.find?_eq_none, List.mem_reverse, beq_iff_eq] at hfind
        rintro (⟨hmem, -⟩ | hmem)
        · obtain ⟨m, hm, hmk⟩ := List.mem_map.1 hmem
          exact hfind m hm hmk
        · simp at hmem
      rw [if_neg hkey]
      rfl
  have hkeys : (((s.removeFile file).merge mappings file).removeFile file).keys =
      (s.removeFile file).keys := by
    refine ((s.removeFile file).erase_keys_merge mappings file).trans ?_
    refine ExtTreeMap.ext_getElem? fun k => ?_
    simp only [removeFile, ExtTreeMap.getElem?_erase]
    split <;> rfl
  exact eq_of_lookup? hids (keys_merge_congr hkeys mappings file)

end Symbols

/-! ## The references -/

namespace References

theorem getElem?_filesOf_renewed {r : References} (h : r.Mutual) {path : Path}
    {edges : List Edge} {t : NodeId} {k : List Part} {f : Path} :
    ((Project.recordEdges (r.removeFile path) path edges).filesOf t)[k]? = some f ↔
      (k = path.parts ∧ f = path ∧ ∃ e ∈ edges, e.kind ≠ .contains ∧ e.target = t) ∨
        (k ≠ path.parts ∧ (r.filesOf t)[k]? = some f) := by
  have hrenewed := Project.mutual_recordEdges (h.removeFile path) path edges
  have hmem : k ∈ (Project.recordEdges (r.removeFile path) path edges).filesOf t ↔
      (k = path.parts ∧ ∃ e ∈ edges, e.kind ≠ .contains ∧ e.target = t) ∨
        (k ≠ path.parts ∧ k ∈ r.filesOf t) := by
    rw [hrenewed.mem_filesOf, Project.mem_targets_recordEdges, mem_targets_removeFile,
      h.mem_filesOf]
  have hvalue : ∀ {f}, ((Project.recordEdges (r.removeFile path) path edges).filesOf t)[k]? =
      some f → (k = path.parts → f = path) ∧ (k ≠ path.parts → (r.filesOf t)[k]? = some f) := by
    intro f hf
    have hcases := Project.getElem?_filesOf_recordEdges hf
    rw [getElem?_filesOf_removeFile h] at hcases
    refine ⟨fun hk => ?_, fun hk => ?_⟩
    · rw [if_pos hk.symm] at hcases
      simpa using hcases
    · rw [if_neg (Ne.symm hk)] at hcases
      refine hcases.resolve_left fun hpath => hk ?_
      rw [← hpath, hrenewed.spelled hf]
  constructor
  · intro hf
    have hk := hmem.1 (ExtTreeMap.mem_iff_isSome_getElem?.2 (Option.isSome_of_eq_some hf))
    rcases hk with ⟨hk, hedge⟩ | ⟨hk, -⟩
    · exact .inl ⟨hk, (hvalue hf).1 hk, hedge⟩
    · exact .inr ⟨hk, (hvalue hf).2 hk⟩
  · intro hf
    have hk : k ∈ (Project.recordEdges (r.removeFile path) path edges).filesOf t := by
      refine hmem.2 (hf.imp (fun hf => ⟨hf.1, hf.2.2⟩) fun hf => ⟨hf.1, ?_⟩)
      exact ExtTreeMap.mem_iff_isSome_getElem?.2 (Option.isSome_of_eq_some hf.2)
    obtain ⟨g, hg⟩ := Option.isSome_iff_exists.1 (ExtTreeMap.mem_iff_isSome_getElem?.1 hk)
    rcases hf with ⟨hk, rfl, -⟩ | ⟨hk, hf⟩
    · rw [hg, (hvalue hg).1 hk]
    · rw [hg, ← (hvalue hg).2 hk, hf]

section Repeat

variable {r : References} (h : r.Mutual) (path : Path) (edges : List Edge)
include h

theorem filesOf_repeat (t : NodeId) :
    (Project.recordEdges ((Project.recordEdges (r.removeFile path) path edges).removeFile path)
        path edges).filesOf t =
      (Project.recordEdges (r.removeFile path) path edges).filesOf t := by
  have honce := Project.mutual_recordEdges (h.removeFile path) path edges
  refine ExtTreeMap.ext_getElem? fun k => Option.ext fun f => ?_
  rw [getElem?_filesOf_renewed honce, getElem?_filesOf_renewed h]
  by_cases hk : k = path.parts <;> simp [hk]

omit h in
theorem targetsOf_repeat (f : Path) :
    (Project.recordEdges ((Project.recordEdges (r.removeFile path) path edges).removeFile path)
        path edges).targetsOf f =
      (Project.recordEdges (r.removeFile path) path edges).targetsOf f := by
  refine congrArg ExtTreeSet.toList (ExtTreeSet.ext_mem fun t => ?_)
  rw [Project.mem_targets_recordEdges, mem_targets_removeFile, Project.mem_targets_recordEdges,
    mem_targets_removeFile]
  by_cases hf : f.parts = path.parts <;> simp [hf]

end Repeat

end References

/-! ## The store -/

/-- An output whose declarations and edges are those of a file, and whose edges end at its own
declarations or at those of other files. -/
structure Output.Belongs (output : Output) (path : Path) (s : Store) : Prop where
  nodes : ∀ n ∈ output.nodes, n.file.parts = path.parts
  edges : ∀ e ∈ output.edges, ∀ f, e.file = some f → f.parts = path.parts
  ends : ∀ e ∈ output.edges, ∀ i, i = e.source ∨ i = e.target →
    i ∈ output.nodes.map Node.id ∨ ∃ n, s.node? i = some n ∧ n.file.parts ≠ path.parts

theorem Output.Belongs.edge? {output : Output} {path : Path} {s : Store}
    (h : output.Belongs path s) {i : EdgeId} {e : Edge} (he : output.edge? path i = some e) :
    e.file.map Path.parts = some path.parts ∧ ∃ found ∈ output.edges,
      e.source = found.source ∧ e.target = found.target := by
  obtain ⟨found, hfound, rfl⟩ := List.mem_map.1 (Output.edge?_eq_some he).1
  refine ⟨?_, found, hfound, Project.ownEdge_source path found, Project.ownEdge_target path found⟩
  unfold Project.ownEdge
  cases hfile : found.file with
  | none => rfl
  | some f => simp [hfile, h.edges found hfound f hfile]

namespace Project.Replaced

variable {p q q' : Project} {path : Path} {output : Output} (h : Replaced p path output q)
include h

theorem hasNode_iff {i : NodeId} : q.store.hasNode i = true ↔
    i ∈ output.nodes.map Node.id ∨ ∃ n, p.store.node? i = some n ∧ n.file.parts ≠ path.parts := by
  rw [Store.hasNode_iff]
  simp only [h.node?]
  cases hout : output.node? i with
  | some m =>
    have hmem : i ∈ output.nodes.map Node.id := by
      obtain ⟨hm, rfl⟩ := Output.node?_eq_some hout
      exact List.mem_map_of_mem hm
    simp [hmem]
  | none => simp [Output.node?_eq_none.1 hout]

theorem edge?_eq_none {i : EdgeId} (he : q.store.edge? i = none) : output.edge? path i = none := by
  refine Option.eq_none_iff_forall_ne_some.2 fun e hout => ?_
  by_cases hback : ∃ e', Returns p q path e' ∧ e'.id = i
  · obtain ⟨e', hreturns, hid⟩ := hback
    rw [h.edge?.2 (.inl ⟨hreturns, hid⟩)] at he
    cases he
  · rw [h.edge?.2 (.inr ⟨fun e' hreturns hid => hback ⟨e', hreturns, hid⟩, .inl hout⟩)] at he
    cases he

variable (ho : output.Belongs path p.store)
include ho

theorem node?_own {i : NodeId} {n : Node} (hn : q.store.node? i = some n) :
    n.file.parts = path.parts ↔ output.node? i = some n := by
  constructor
  · intro hfile
    exact (h.node?.1 hn).resolve_right fun hother => hother.2.2 hfile
  · exact fun hout => ho.nodes n (Output.node?_eq_some hout).1

theorem closed (hp : p.store.Closed) : q.store.Closed := by
  intro i e he
  rcases h.edge?.1 he with ⟨hreturns, -⟩ | ⟨-, hout | ⟨-, hstored, hspares⟩⟩
  · exact hreturns.2.2.2
  · obtain ⟨-, found, hfound, hsource, htarget⟩ := ho.edge? hout
    rw [hsource, htarget, h.hasNode_iff, h.hasNode_iff]
    exact ⟨ho.ends found hfound _ (.inl rfl), ho.ends found hfound _ (.inr rfl)⟩
  · -- The ends of an edge that stays are declarations of other files.
    have hends : ∀ i, i = e.source ∨ i = e.target → p.store.hasNode i = true →
        q.store.hasNode i = true := by
      intro i hi hnode
      obtain ⟨n, hn⟩ := Store.hasNode_iff.1 hnode
      refine h.hasNode_iff.2 (.inr ⟨n, hn, fun hfile => hspares.2 ⟨n, ?_, hfile⟩⟩)
      rcases hi with rfl | rfl
      · exact .inl hn
      · exact .inr hn
    obtain ⟨hsource, htarget⟩ := hp i e hstored
    exact ⟨hends _ (.inl rfl) hsource, hends _ (.inr rfl) htarget⟩

/-- An edge that is neither found in the file nor ends in it was there before, and the output does
not know its identifier. -/
theorem edge?_spared {i : EdgeId} {e : Edge} (he : q.store.edge? i = some e)
    (hspares : Spares q.store path e) : output.edge? path i = none := by
  rcases h.edge?.1 he with ⟨⟨-, -, ⟨n, hn, hfile⟩, hends⟩, -⟩ | ⟨-, hout | ⟨hnone, -⟩⟩
  · -- An end that the file had before is one of the output, as it is there again.
    have hmeets : ∀ i, p.store.node? i = some n → q.store.hasNode i = true →
        ∃ m, q.store.node? i = some m ∧ m.file.parts = path.parts := by
      intro i hn hnode
      obtain ⟨m, hm⟩ := Store.hasNode_iff.1 hnode
      refine ⟨m, hm, (h.node?_own ho hm).2 ((h.node?.1 hm).resolve_right ?_)⟩
      rintro ⟨-, hm', hother⟩
      rw [hn] at hm'
      exact hother (Option.some.inj hm' ▸ hfile)
    rcases hn with hn | hn
    · obtain ⟨m, hm, hfile⟩ := hmeets _ hn hends.1
      exact absurd ⟨m, .inl hm, hfile⟩ hspares.2
    · obtain ⟨m, hm, hfile⟩ := hmeets _ hn hends.2
      exact absurd ⟨m, .inr hm, hfile⟩ hspares.2
  · exact absurd (ho.edge? hout).1 hspares.1
  · exact hnone

variable (h' : Replaced q path output q')
include h'

theorem node?_repeat (i : NodeId) : q'.store.node? i = q.store.node? i := by
  refine Option.ext fun n => ?_
  rw [h'.node?]
  constructor
  · rintro (hout | ⟨-, hn, -⟩)
    · exact h.node?.2 (.inl hout)
    · exact hn
  · intro hn
    by_cases hfile : n.file.parts = path.parts
    · exact .inl ((h.node?_own ho hn).1 hfile)
    · refine .inr ⟨?_, hn, hfile⟩
      rcases h.node?.1 hn with hout | ⟨hnone, -⟩
      · exact absurd ((h.node?_own ho hn).2 hout) hfile
      · exact hnone

omit h ho h' in
/-- What returns in the second pass is what the first one left under the identifier. -/
theorem eq_of_returns {i : EdgeId} {e e' : Edge} (he : q.store.edge? i = some e)
    (hreturns : Returns q q' path e') (hid : e'.id = i) : e' = e := by
  have hstored := hreturns.1
  rw [hid, he] at hstored
  exact (Option.some.inj hstored).symm

theorem edge?_kept (hp : p.store.Closed) (hq : q.store.Coherent) {i : EdgeId} {e : Edge}
    (he : q.store.edge? i = some e) : q'.store.edge? i = some e := by
  have hid := hq.edge_id he
  have hends : q'.store.hasNode e.source = true ∧ q'.store.hasNode e.target = true := by
    simp only [Store.hasNode_iff, h.node?_repeat ho h']
    simp only [← Store.hasNode_iff]
    exact h.closed ho hp i e he
  rw [h'.edge?]
  by_cases hown : e.file.map Path.parts = some path.parts
  · refine .inr ⟨fun e' hreturns hid' => ?_, .inl ?_⟩
    · exact hreturns.2.1 (eq_of_returns he hreturns hid' ▸ hown)
    · rcases h.edge?.1 he with ⟨hreturns, -⟩ | ⟨-, hout | ⟨-, -, hspares⟩⟩
      · exact absurd hown hreturns.2.1
      · exact hout
      · exact absurd hown hspares.1
  · by_cases hmeets : Meets q.store path e
    · exact .inl ⟨⟨hid.symm ▸ he, hown, hmeets, hends⟩, hid⟩
    · refine .inr ⟨fun e' hreturns hid' => ?_, .inr ⟨?_, he, hown, hmeets⟩⟩
      · exact hmeets (eq_of_returns he hreturns hid' ▸ hreturns.2.2.1)
      · exact h.edge?_spared ho he ⟨hown, hmeets⟩

theorem edge?_repeat (hp : p.store.Closed) (hq : q.store.Coherent) (i : EdgeId) :
    q'.store.edge? i = q.store.edge? i := by
  cases he : q.store.edge? i with
  | some e => exact h.edge?_kept ho h' hp hq he
  | none =>
    refine Option.eq_none_iff_forall_ne_some.2 fun e he' => ?_
    rcases h'.edge?.1 he' with ⟨hreturns, hid⟩ | ⟨-, hout | ⟨-, hstored, -⟩⟩
    · have hstored := hreturns.1
      rw [hid, he] at hstored
      cases hstored
    · rw [h.edge?_eq_none he] at hout
      cases hout
    · rw [hstored] at he
      cases he

/-- **The store is the same after the second pass.** -/
theorem store_repeat (hp : p.store.Closed) (hq : q.store.Coherent) (hq' : q'.store.Coherent) :
    q'.store = q.store :=
  hq'.ext hq (h.node?_repeat ho h') (h.edge?_repeat ho h' hp hq)

end Project.Replaced

/-! ## A batch of one change -/

/-- A repository that refuses nothing, and an analyzer that finds the same in a file whenever it is
asked about it. -/
structure World.Finds (w : World) (path : Path) (output : Output) : Prop where
  obliging : w.Obliging
  outcome : ∀ n r, r.path = path → (w.analyze n r).outcome = .ok output

namespace Project

theorem respond_of_ok {w : World} (hw : w.Obliging) (p : Project) (s : Summary) (f : InFlight)
    {reply : Reply} {output : Output} (hok : reply.outcome = .ok output) :
    ∃ q s', p.respond w s f reply = (q, s', .ok { removed := f.seed, output }) := by
  obtain ⟨q, s', hi, -⟩ := integrate_ledger hw (if reply.cancels then p.cancel else p) s
    f.change.path output f.orphaned
  refine ⟨q, s', ?_⟩
  unfold respond
  simp only [hok, hi]

theorem handle_of_finds {w : World} {c : Change} {output : Output} (hw : w.Finds c.path output)
    (hdel : c.isDeletion = false) (p : Project) (s : Summary) :
    ∃ q s' removed, p.handle w s c = (q, s', .ok { removed, output }) := by
  obtain ⟨q, s', ⟨removed, orphaned⟩, hstale, -⟩ := Batch.removeStale_moves hw.obliging c.places p s
  generalize hf : InFlight.mk c false removed orphaned = f
  have hpath : f.change.path = c.path := by rw [← hf]
  have hok : (Batch.ask w q f).2.2.outcome = .ok output := hw.outcome _ (q.requestFor _) hpath
  obtain ⟨q', s'', hrespond⟩ := respond_of_ok hw.obliging (Batch.ask w q f).1 s' f hok
  have hseed : f.seed = removed := by rw [← hf]
  refine ⟨q', s'', removed, ?_⟩
  unfold handle
  rw [hstale]
  simp only [hdel, Bool.false_eq_true, if_false, hf]
  rw [hrespond, hseed]

theorem root_handle (w : World) (p : Project) (s : Summary) (c : Change) :
    (p.handle w s c).1.root = p.root := by
  have hstale := removeStale_apart (g := root) (fun _ _ _ _ => rfl) w p (fun _ _ => rfl) c.places s
  unfold handle
  rcases hr : Batch.removeStale w c.places p s with ⟨q, s', e | ⟨removed, orphaned⟩⟩
  · rwa [hr] at hstale
  · rw [hr] at hstale
    dsimp only
    split
    · exact hstale
    · exact (respond_apart (g := root) (fun _ _ _ _ => rfl) w _ (fun _ => rfl)
        (fun _ _ _ _ => rfl) _ _ _).trans hstale

theorem symbols_respond {w : World} {p q : Project} {s s' : Summary} {f : InFlight} {reply : Reply}
    {h : Handling} (hr : p.respond w s f reply = (q, s', .ok h)) :
    q.symbols = p.symbols.merge h.output.symbols f.change.path := by
  have hcancel : (if reply.cancels then p.cancel else p).symbols = p.symbols := by
    split <;> rfl
  unfold respond at hr
  dsimp only at hr
  rw [← hcancel]
  generalize (if reply.cancels then p.cancel else p) = p' at hr
  cases hok : reply.outcome with
  | error cause => simp [hok] at hr
  | ok output =>
    have hsymbols := integrate_apart (g := symbols) (fun _ _ _ _ => rfl) w p' s f.change.path output
      f.orphaned
    simp only [hok] at hr
    rcases hi : p'.integrate w s f.change.path output f.orphaned with ⟨q', s'', e | _⟩
    · simp [hi] at hr
    · simp only [hi, Prod.mk.injEq, Except.ok.injEq] at hr
      obtain ⟨rfl, -, rfl⟩ := hr
      rw [hi] at hsymbols
      exact hsymbols

theorem symbols_handle {w : World} {p q : Project} {s s' : Summary} {c : Change} {h : Handling}
    (hh : p.handle w s c = (q, s', .ok h)) (hdel : c.isDeletion = false)
    (hsource : c.source? = none) :
    q.symbols = (p.symbols.removeFile c.path).merge h.output.symbols c.path := by
  have hplaces : c.places = [c.path] := by rw [Change.places, hsource]; rfl
  have hremoved : (Batch.removeStale w c.places p s).1.symbols = p.symbols.removeFile c.path := by
    have hfile := removeFile_apart (g := symbols) (fun _ _ _ _ => rfl) w p s c.path
    rw [hplaces, Batch.removeStale]
    rcases hr : p.removeFile w s c.path with ⟨q, s', e | removal⟩
    · rwa [hr] at hfile
    · rwa [hr] at hfile
  unfold handle at hh
  rcases hstale : Batch.removeStale w c.places p s with ⟨q', s'', e | ⟨removed, orphaned⟩⟩
  · simp [hstale] at hh
  · rw [hstale] at hremoved
    simp only [hstale, hdel, Bool.false_eq_true, if_false] at hh
    rw [symbols_respond hh, ← hremoved]
    rfl

theorem processChanges_single (w : World) (p : Project) (c : Change) :
    ∃ (start : Project) (b : Batch), start.store = p.store ∧ start.references = p.references ∧
      start.root = p.root ∧ start.symbols = p.symbols ∧
      p.processChanges w [c] false =
        (b.close (normalizeChange p.root c) false
            (start.handle w b.summary (normalizeChange p.root c))).1.finish w
          (b.close (normalizeChange p.root c) false
            (start.handle w b.summary (normalizeChange p.root c))).2 := by
  obtain ⟨start, b, hbegin, hcascade, hqueue, hprocessed, hcancel, hlive⟩ :
      ∃ start b, p.begin [c] false = (start, b) ∧ b.cascade = false ∧
        b.queue = [(normalizeChange p.root c, false)] ∧ b.processed = ∅ ∧
        start.cancelled = false ∧ start.store = p.store ∧ start.references = p.references ∧
        start.root = p.root ∧ start.symbols = p.symbols := by
    have hsettled : settle [normalizeChange p.root c] = [normalizeChange p.root c] :=
      settle_eq_self (List.pairwise_singleton _ _)
    unfold begin
    rw [List.map_singleton, hsettled]
    exact ⟨_, _, rfl, rfl, rfl, rfl, rfl, rfl, rfl, rfl, rfl⟩
  have hturn := Batch.turn_eq_close (w := w) hqueue hcancel (by simp [hprocessed])
  generalize hdone : b.close (normalizeChange p.root c) false
    (start.handle w b.summary (normalizeChange p.root c)) = done at hturn
  have hempty : done.2.queue = [] := by
    have hpulled : ∀ o, b.pulled (normalizeChange p.root c) o = [] := by
      rintro ⟨q, s, e | h⟩ <;> simp [Batch.pulled, hcascade]
    rw [← hdone, Batch.queue_close, hqueue, hpulled]
    rfl
  have hnext : done.2.next w done.1 = (done.1, done.2, .finished) := by rw [Batch.next, hempty]
  have hend : done.2.turn w done.1 = none := by rw [Batch.turn, hnext]
  have hbound : b.bound start = start.references.fileCount + 1 + 1 := by
    rw [Batch.bound, hqueue, List.length_singleton, Nat.add_comm 1]
  have hrun : b.run w (fun _ => false) start = (done.1, done.2, .ended) := by
    rw [Batch.run, hbound, Batch.runWithin_eq_turn, hturn]
    dsimp only
    rw [Batch.runWithin_eq_turn, hend, hnext]
  refine ⟨start, b, hlive.1, hlive.2.1, hlive.2.2.1, hlive.2.2.2, ?_⟩
  unfold processChanges
  rw [hbegin]
  dsimp only
  rw [hrun, hdone]

theorem symbols_finish (w : World) (p : Project) (b : Batch) :
    (p.finish w b).1.symbols = p.symbols := by
  have hpublish : ∀ (files : List Path) (f : Path → UpdateEvent) (p : Project),
      (files.foldl (fun p file => p.publish (f file)) p).symbols = p.symbols := by
    intro files f
    induction files with
    | nil => exact fun _ => rfl
    | cons file files ih => exact fun p => ih _
  have hclosing : (p.closingFlush w).1.symbols = p.symbols :=
    call_apart (g := symbols) (fun _ _ _ _ => rfl) w p .flush fun _ => rfl
  have hflush : (p.flushBatch w b.summary).1.symbols = p.symbols := by
    rw [flushBatch_eq]
    split
    · rfl
    · rcases hc : p.closingFlush w with ⟨q, e | _⟩
      · rw [hc] at hclosing
        exact (hpublish _ _ q).trans hclosing
      · rw [hc] at hclosing
        exact hclosing
  unfold finish
  dsimp only
  split <;> exact hflush

theorem repository_finish (w : World) (p : Project) (b : Batch) :
    (p.finish w b).1.repository.store = p.repository.store := by
  have hstored := congrArg (fun x => x.2.store) (stored_finish w p b)
  refine hstored.trans ?_
  split
  · rfl
  · exact Repository.store_flushWith ..

theorem mirrored_processChanges {w : World} (hw : w.Obliging) {p : Project}
    (hc : p.store.Coherent) (hr : p.repository.store = p.store) (changes : List Change)
    (cascade : Bool) :
    (p.processChanges w changes cascade).1.repository.store =
      (p.processChanges w changes cascade).1.store := by
  have hsteps := p.steps_lastMoment w changes cascade
  have hmirrored : (p.lastMoment w changes cascade).ledger.Mirrored :=
    Ledger.Mirrored.moves (Moment.moves_of_steps hw hsteps) ⟨hr, hc⟩
  rw [processChanges_eq_finish, repository_finish, (keeps_finish _ _ _).store]
  exact hmirrored.repository

theorem consistent_processChanges {p : Project} (hp : p.Consistent) (w : World)
    (changes : List Change) (cascade : Bool) :
    (p.processChanges w changes cascade).1.Consistent := by
  have hlast := Moment.Steps.consistent (p.steps_lastMoment w changes cascade)
    (hp.congr rfl rfl)
  have hkeeps := keeps_finish w (p.lastMoment w changes cascade).project
    (p.lastMoment w changes cascade).batch
  rw [processChanges_eq_finish]
  exact hlast.congr hkeeps.store hkeeps.references

theorem Replaced.congr {p p' q q' : Project} {path : Path} {output : Output}
    (h : Replaced p path output q) (hp : p.store = p'.store) (hpr : p.references = p'.references)
    (hq : q'.store = q.store) (hqr : q'.references = q.references) :
    Replaced p' path output q' where
  node? := by
    rw [← hp, hq]
    exact h.node?
  edge? := by
    simp only [Returns, ← hp, hq]
    exact h.edge?
  references := by
    rw [← hpr, hqr]
    exact h.references

/-- **A file that is analyzed again is replaced by what is found in it.** -/
theorem replaced_modified {p : Project} (hp : p.Consistent) {w : World} {path : Path}
    {output : Output} (hw : w.Finds (p.root.relative path) output) {q : Project}
    (hq : (p.processChanges w [.modified path] false).1 = q) :
    Replaced p (p.root.relative path) output q ∧ q.root = p.root ∧
      q.symbols = (p.symbols.removeFile (p.root.relative path)).merge output.symbols
        (p.root.relative path) := by
  obtain ⟨start, b, hstore, hreferences, hroot, hsymbols, hsingle⟩ :=
    p.processChanges_single w (.modified path)
  have hplain : normalizeChange p.root (.modified path) = .modified (p.root.relative path) := rfl
  rw [hplain] at hsingle
  generalize p.root.relative path = key at hw hsingle ⊢
  obtain ⟨q', s', removed, hhandle⟩ := handle_of_finds (c := .modified key) hw rfl start b.summary
  rw [hhandle] at hsingle
  obtain rfl : (q'.finish w _).1 = q := (congrArg Prod.fst hsingle).symm.trans hq
  have hkeeps := keeps_finish w q' (b.close (.modified key) false
    (q', s', .ok { removed, output })).2
  have hreplaced := replaced_handle (hstore ▸ hp.coherent) hhandle rfl
  have hvisited := root_handle w start b.summary (.modified key)
  have htaken := symbols_handle hhandle rfl rfl
  rw [hhandle] at hvisited
  refine ⟨hreplaced.congr hstore hreferences hkeeps.store hkeeps.references,
    hkeeps.root.trans (hvisited.trans hroot), ?_⟩
  rw [symbols_finish, htaken, hsymbols]
  rfl

end Project

/-! ## The main statement -/

/-- **To analyze a file again that did not change changes nothing.** The project may be any one
whose repository holds its graph and where no edge dangles. If the analyzer finds the same
declarations and edges of the file both times, which end in the file or in others, the second pass
leaves the store, the references, the symbols and the stored graph as the first one left them. -/
theorem Project.Consistent.repeats {p : Project} (hp : p.Consistent)
    (hmirrored : p.repository.store = p.store) (hclosed : p.store.Closed) {w : World}
    {path : Path} {output : Output} (hw : w.Finds (p.root.relative path) output)
    (ho : output.Belongs (p.root.relative path) p.store) :
    let once := (p.processChanges w [.modified path] false).1
    let twice := (once.processChanges w [.modified path] false).1
    twice.store = once.store ∧
    (∀ f, twice.references.targetsOf f = once.references.targetsOf f) ∧
    (∀ t, twice.references.filesOf t = once.references.filesOf t) ∧
    twice.symbols = once.symbols ∧
    twice.repository.graph = once.repository.graph := by
  dsimp only
  generalize hone : (p.processChanges w [.modified path] false).1 = once
  generalize htwo : (once.processChanges w [.modified path] false).1 = twice
  have honce : once.Consistent := hone ▸ Project.consistent_processChanges hp w _ _
  have htwice : twice.Consistent := htwo ▸ Project.consistent_processChanges honce w _ _
  obtain ⟨hfirst, hroot, hsymbols⟩ := Project.replaced_modified hp hw hone
  obtain ⟨hsecond, -, hsymbols'⟩ := Project.replaced_modified honce (hroot.symm ▸ hw) htwo
  rw [hroot] at hsecond hsymbols'
  have hstored : once.repository.store = once.store :=
    hone ▸ Project.mirrored_processChanges hw.obliging hp.coherent hmirrored _ _
  have hstored' : twice.repository.store = twice.store :=
    htwo ▸ Project.mirrored_processChanges hw.obliging honce.coherent hstored _ _
  have hstore : twice.store = once.store :=
    hfirst.store_repeat ho hsecond hclosed honce.coherent htwice.coherent
  refine ⟨hstore, fun f => ?_, fun t => ?_, ?_, ?_⟩
  · rw [hsecond.references, hfirst.references, References.targetsOf_repeat]
  · rw [hsecond.references, hfirst.references, References.filesOf_repeat hp.referring]
  · rw [hsymbols', hsymbols, Symbols.removeFile_merge_removeFile]
  · exact congrArg Store.snapshot (hstored'.trans (hstore.trans hstored.symm))

/-- What is found in `a.cs`: two calls of `b.cs`, of which one has the identifier of an edge that
was found there. -/
def callsBack : Output where
  nodes := [.ofFile ⟨"a.cs"⟩]
  edges := [.ofCall ⟨"a.cs"⟩ ⟨"b.cs"⟩, { Edge.ofCall ⟨"a.cs"⟩ ⟨"b.cs"⟩ with id := "b.cs" }]
  symbols := [("a", "a.cs")]

/-- An analyzer that finds it in every file. -/
def World.callsBack : World := Reader.verbatim.world fun _ => some CodeGraph.callsBack

theorem World.finds_callsBack (path : Path) : World.callsBack.Finds path CodeGraph.callsBack :=
  ⟨fun _ _ => rfl, fun _ _ _ => rfl⟩

theorem Output.belongs_callsBack {s : Store} {n : Node} (hn : s.node? "b.cs" = some n)
    (hfile : n.file.parts ≠ Path.parts ⟨"a.cs"⟩) : callsBack.Belongs ⟨"a.cs"⟩ s where
  nodes := by simp [callsBack, Node.ofFile]
  edges := by simp [callsBack, Edge.ofCall]
  ends := by
    intro e he i hi
    obtain ⟨hsource, htarget⟩ : e.source = "a.cs" ∧ e.target = "b.cs" := by
      simp only [callsBack, List.mem_cons, List.not_mem_nil, or_false] at he
      rcases he with rfl | rfl <;> exact ⟨rfl, rfl⟩
    rcases hi with rfl | rfl
    · exact .inl (by simp [callsBack, Node.ofFile, hsource])
    · exact .inr ⟨n, htarget ▸ hn, hfile⟩

theorem Project.mirrored_callerIndexed :
    Project.callerIndexed.repository.store = Project.callerIndexed.store := by
  have hindexed : Project.callerIndexed = (Project.unread.processChanges
      (Reader.verbatim.world callerBeside) [.created ⟨"a.cs"⟩, .created ⟨"b.cs"⟩] false).1 := rfl
  rw [hindexed]
  exact Project.mirrored_processChanges (fun _ _ => rfl) Store.coherent_empty rfl _ _

theorem Project.closed_callerIndexed : Project.callerIndexed.store.Closed := by
  have hcoherent := Regime.Live.callerIndexed.consistent.coherent
  have hends : ∀ e ∈ Project.callerIndexed.store.allEdges,
      Project.callerIndexed.store.hasNode e.source = true ∧
        Project.callerIndexed.store.hasNode e.target = true := by decide +kernel
  intro i e he
  exact hends e ((Store.mem_allEdges hcoherent).2 (hcoherent.edge_id he ▸ he))

/-- The edge of `b.cs` comes back in both passes, and hides the other one. -/
theorem Project.Consistent.repeats_colliding :
    let once := (Project.callerIndexed.processChanges World.callsBack [.modified ⟨"a.cs"⟩] false).1
    let twice := (once.processChanges World.callsBack [.modified ⟨"a.cs"⟩] false).1
    Project.callerIndexed.Consistent ∧
    Project.callerIndexed.repository.store = Project.callerIndexed.store ∧
    Project.callerIndexed.store.Closed ∧
    callsBack.Belongs (Project.callerIndexed.root.relative ⟨"a.cs"⟩) Project.callerIndexed.store ∧
    once.store.allEdges.map (fun e => (e.id, e.source, e.target)) =
      [("a.cs", "a.cs", "b.cs"), ("b.cs", "b.cs", "a.cs")] ∧
    twice.store = once.store ∧ twice.symbols = once.symbols := by
  have hconsistent := Regime.Live.callerIndexed.consistent
  have hb : Project.callerIndexed.store.node? "b.cs" = some (.ofFile ⟨"b.cs"⟩) := by
    decide +kernel
  have hkey : Project.callerIndexed.root.relative ⟨"a.cs"⟩ = ⟨"a.cs"⟩ := by decide +kernel
  have hbelongs : callsBack.Belongs (Project.callerIndexed.root.relative ⟨"a.cs"⟩)
      Project.callerIndexed.store := by
    rw [hkey]
    exact Output.belongs_callsBack hb (by decide +kernel)
  have hrepeats := Project.Consistent.repeats hconsistent Project.mirrored_callerIndexed
    Project.closed_callerIndexed (World.finds_callsBack _) hbelongs
  dsimp only at hrepeats ⊢
  exact ⟨hconsistent, Project.mirrored_callerIndexed, Project.closed_callerIndexed, hbelongs,
    by decide +kernel, hrepeats.1, hrepeats.2.2.2.1⟩

end CodeGraph
