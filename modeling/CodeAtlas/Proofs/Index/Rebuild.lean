import CodeAtlas.Proofs.Index.Renaming
import CodeAtlas.Proofs.Index.Sweeps

/-!
# Sweeps against a rebuild

A directory that was swept again and again while it changed, against a single sweep of its last
state into an empty store. The single sweep puts files in place as it comes to them, the others did
as files changed. Replacing a file drops the edges into it, and a file that is passed over does not
bring its own back: what remains of them depends on the order, and on nothing else.

* `Sweep.agrees_with_rebuild`   what both graphs hold, and when they are the same;
* `rebuild_may_differ`          they need not be.
-/

namespace CodeAtlas

open StoreM

/-- Sweeps of some trees against a single sweep of the last one: up to ids and the order of rows,
they leave the same entities and, within each file, the same relationships. An edge into another
file is in a graph exactly if that file was put in place before the one that links to it, so the
graphs are the same exactly if the two orders agree wherever a file links to another. -/
theorem Sweep.agrees_with_rebuild (s : Sweep) (trees : List Node) (last : Node)
    (h : s.Handles trees last) :
    ∃ reports inc report reb f,
      ((trees ++ [last]).mapM s.run).runOn (Database.opened true) = (.ok reports, inc) ∧
      (s.run last).runOn (Database.opened true) = (.ok report, reb) ∧
      (inc.tables.entityRows.map (EntityRow.rename f)).Perm reb.tables.entityRows ∧
      (∀ source target kind, inc.tables.HasEdge source target kind ↔
        Refers s.base s.extractor (s.order (trees ++ [last])) inc.tables.entityRows source target
          kind) ∧
      (∀ source target kind, reb.tables.HasEdge source target kind ↔
        ∃ i j, Refers s.base s.extractor (s.order [last]) inc.tables.entityRows i j kind ∧
          f i = source ∧ f j = target) ∧
      (∀ v ∈ s.versions last, ∀ i j kind,
        Links s.base s.extractor inc.tables.entityRows v v i j kind →
          inc.tables.HasEdge i j kind ∧ reb.tables.HasEdge (f i) (f j) kind) ∧
      (SameGraph f inc.tables reb.tables ↔
        ∀ v ∈ s.versions last, ∀ w ∈ s.versions last, ∀ i j kind,
          Links s.base s.extractor inc.tables.entityRows v w i j kind →
            (NotAfter (s.order (trees ++ [last])) w v ↔ NotAfter (s.order [last]) w v)) := by
  have hlast : last.IsPlain :=
    h.plain last (List.mem_append_right trees (List.mem_singleton_self last))
  obtain ⟨reports, inc, hinc, hshows⟩ := mapM_run_shows_order h.plain
  obtain ⟨report, reb, hreb, hfresh⟩ := run_shows_order hlast
  have hmem : ∀ v, v ∈ s.order (trees ++ [last]) ↔ v ∈ s.versions last := fun _ => h.mem_order
  have hmem' : ∀ v, v ∈ s.order [last] ↔ v ∈ s.versions last := fun _ => h.fresh.mem_order
  have hsame : Counterparts s.base s.extractor (s.order (trees ++ [last])) (s.order [last])
      inc.tables reb.tables :=
    ⟨hshows.graph, hfresh.graph, hshows.sound.tables.distinctIds, hfresh.sound.tables.distinctIds,
      fun v => (hmem v).trans (hmem' v).symm⟩
  refine ⟨reports, inc, report, reb, inc.tables.pairing reb.tables, hinc, hreb, hsame.rows_perm,
    hshows.graph.edges, hsame.hasEdge_iff, ?_, ?_⟩
  · -- within a file no order matters
    intro v hv i j kind hlinks
    refine ⟨(hshows.graph.edges i j kind).mpr ⟨v, (hmem v).mpr hv, v, .inl rfl, hlinks⟩, ?_⟩
    exact (hsame.hasEdge_iff _ _ kind).mpr
      ⟨i, j, ⟨v, (hmem' v).mpr hv, v, .inl rfl, hlinks⟩, rfl, rfl⟩
  · rw [hsame.sameGraph_iff]
    simp only [hmem]

/-! ### Two files, one calling the other -/

/-- sweeps of a whole disk -/
def linkSweep : Sweep where
  base := ⟨[]⟩
  plain := nofun
  extractor := linkExtractor
  staysInFile := linkExtractor_staysInFile ⟨[]⟩
  options := {}
  root := "/"

def emptyFile : Node := .file ⟨#[]⟩

def callerTree : Node := .directory [("main.ts", emptyFile)]

def calleeTree : Node := .directory [("lib.ts", emptyFile)]

def bothTree : Node := .directory [("lib.ts", emptyFile), ("main.ts", emptyFile)]

def callee : Version := ⟨"/lib.ts", ""⟩

def caller : Version := ⟨"/main.ts", ""⟩

theorem isPlainName_caller : Path.IsPlainName "main.ts" :=
  ⟨by decide, by decide, by decide, by decide⟩

theorem isPlainName_callee : Path.IsPlainName "lib.ts" :=
  ⟨by decide, by decide, by decide, by decide⟩

theorem linkSweep_paths :
    (linkSweep.paths callerTree).map Path.text = ["/main.ts"] ∧
      (linkSweep.paths calleeTree).map Path.text = ["/lib.ts"] ∧
      (linkSweep.paths bothTree).map Path.text = ["/lib.ts", "/main.ts"] := by
  decide +kernel

theorem linkSweep_versions : linkSweep.versions callerTree = [caller] ∧
    linkSweep.versions calleeTree = [callee] ∧ linkSweep.versions bothTree = [callee, caller] := by
  decide +kernel

theorem linkSweep_order : linkSweep.order [callerTree] = [caller] ∧
    linkSweep.order [calleeTree] = [callee] ∧ linkSweep.order [bothTree] = [callee, caller] ∧
    linkSweep.order ([calleeTree] ++ [bothTree]) = [callee, caller] ∧
    linkSweep.order ([callerTree] ++ [bothTree]) = [caller, callee] := by
  obtain ⟨hcaller, hcallee, hboth⟩ := linkSweep_versions
  obtain ⟨hpcaller, hpcallee, hpboth⟩ := linkSweep_paths
  simp only [Sweep.order, Sweep.step, List.singleton_append, List.foldl_cons, List.foldl_nil,
    hcaller, hcallee, hboth, hpcaller, hpcallee, hpboth]
  decide +kernel

theorem linkSweep_handles {tree : Node} {u : Version} (htree : tree.IsPlain)
    (horder : linkSweep.order [tree] = [u]) (hu : u ∈ [callee, caller]) :
    linkSweep.Handles [tree] bothTree where
  plain t ht := by
    rcases List.mem_cons.mp ht with rfl | ht
    · exact htree
    · rw [List.mem_singleton.mp ht]
      exact ⟨isPlainName_callee, trivial, isPlainName_caller, trivial, trivial⟩
  found := by decide +kernel
  hashes _ v hv w hw hpath _ := by
    rw [horder, List.mem_singleton] at hw
    subst hw
    exact Sweep.eq_of_mem_versions (linkSweep_versions.2.2 ▸ hu) hv hpath

/-- With the called file first, as the single sweep finds it, the graphs are the same. -/
theorem agrees_with_rebuild_callee_first :
    ∃ reports inc report reb f,
      ([calleeTree, bothTree].mapM linkSweep.run).runOn (Database.opened true) =
        (.ok reports, inc) ∧
      (linkSweep.run bothTree).runOn (Database.opened true) = (.ok report, reb) ∧
      SameGraph f inc.tables reb.tables := by
  obtain ⟨_, hcallee, hboth, horder, _⟩ := linkSweep_order
  have hhandles : linkSweep.Handles [calleeTree] bothTree :=
    linkSweep_handles ⟨isPlainName_callee, trivial, trivial⟩ hcallee List.mem_cons_self
  obtain ⟨reports, inc, report, reb, f, hinc, hreb, _, _, _, _, hsame⟩ :=
    Sweep.agrees_with_rebuild linkSweep [calleeTree] bothTree hhandles
  refine ⟨reports, inc, report, reb, f, hinc, hreb, hsame.mpr ?_⟩
  intro v _ w _ i j kind _
  rw [horder, hboth]

/-- With the calling file first, the called one comes after it when it appears: the edge is missing,
and a single sweep would find it. -/
theorem rebuild_may_differ :
    ¬ ∀ (s : Sweep) (trees : List Node) (last : Node), s.Handles trees last →
      ∀ reports inc report reb,
        ((trees ++ [last]).mapM s.run).runOn (Database.opened true) = (.ok reports, inc) →
        (s.run last).runOn (Database.opened true) = (.ok report, reb) →
        ∃ f, SameGraph f inc.tables reb.tables := by
  intro hall
  obtain ⟨hcallerOnly, _, hboth, _, horder⟩ := linkSweep_order
  have hhandles : linkSweep.Handles [callerTree] bothTree :=
    linkSweep_handles ⟨isPlainName_caller, trivial, trivial⟩ hcallerOnly
      (List.mem_cons_of_mem callee List.mem_cons_self)
  obtain ⟨reports, inc, hinc, hshows⟩ := Sweep.mapM_run_shows_order hhandles.plain
  obtain ⟨report, reb, hreb, hfresh⟩ := Sweep.run_shows_order (s := linkSweep)
    (hhandles.plain bothTree (List.mem_append_right _ (List.mem_singleton_self _)))
  obtain ⟨f, hsame⟩ :=
    hall linkSweep [callerTree] bothTree hhandles reports inc report reb hinc hreb
  rw [hboth] at hfresh
  rw [horder] at hshows
  -- the single sweep finds the called file before the call
  have hcall : ∃ r ∈ (caller.extraction linkSweep.base linkSweep.extractor).relationships,
      r.targetFilePath = some callee.filePath ∧
      (∃ e ∈ (caller.extraction linkSweep.base linkSweep.extractor).entities,
        e.name = r.sourceName) ∧
      ∃ e ∈ (callee.extraction linkSweep.base linkSweep.extractor).entities,
        e.name = r.targetName := by
    decide +kernel
  obtain ⟨r, hr, htarget, hs, hd⟩ := hcall
  have hcallee : callee ∈ [callee, caller] := List.mem_cons_self
  have hcaller : caller ∈ [callee, caller] := List.mem_cons_of_mem callee List.mem_cons_self
  obtain ⟨i, j, hlinks⟩ := hfresh.graph.exists_links hcaller hcallee hr htarget hs hd
  have hedge := (hfresh.graph.edges i j r.kind.name).mpr
    ⟨caller, hcaller, callee, .inr (List.Sublist.refl _), hlinks⟩
  -- the others came to it afterwards
  have hnone : ∀ a ∈ [caller, callee], ∀ b ∈ [caller, callee],
      ∀ r ∈ (a.extraction linkSweep.base linkSweep.extractor).relationships,
        r.targetFilePath = some b.filePath → ¬ NotAfter [caller, callee] b a := by
    decide +kernel
  obtain ⟨i', j', hedge', _⟩ := (hsame.edges i j r.kind.name).mp hedge
  obtain ⟨a, ha, b, hab, r', hr', _, htarget', _⟩ := (hshows.graph.edges _ _ _).mp hedge'
  exact hnone a ha b (hab.mem ha) r' hr' htarget' hab

end CodeAtlas
