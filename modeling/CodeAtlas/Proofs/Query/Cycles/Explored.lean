import CodeAtlas.Proofs.Query.Cycles.Recorded

/-!
# What the search has followed

Every link that was followed leads to its own entity, or to one that stands later in the list of the
ids that were met, or closes a cycle that was recorded. A cycle that is not recorded a second time is
the same list of ids as the one before: as long as none of its entities is left, both are cut out of
one path.

* `Search.Settled`         what a link that was followed is;
* `Search.Explored`        the links that were followed are settled;
* `Next.explored`          every step keeps this;
* `closed_of_explored`     at the end of all searches, links lead from what was left to what was left;
* `place_le_or_recorded`   and so do walks, on which a cycle closes or the places never go back.
-/

namespace CodeAtlas.Cycles.Search

/-- a cycle was recorded that is closed by the link from one id to the other -/
def Closes (s : Search) (source target : String) : Prop :=
  ∃ f ∈ s.found, f.ids.head? = some target ∧ f.ids.getLast? = some source

/-- a link leads to the id itself, to one that stands later, or closes a cycle -/
def Settled (s : Search) (source target : String) : Prop :=
  source = target ∨ [source, target].Sublist s.met ∨ s.Closes source target

/-- the links of what was left, and the ones that were followed of what is open, are settled -/
structure Explored (g : DependencyGraph) (s : Search) : Prop where
  done : ∀ id ∈ s.done, ∀ link ∈ g.dependencies id, s.Settled id link.entityId
  opened : ∀ frame ∈ s.frames, ∀ i < frame.next, ∀ link, (g.dependencies frame.node)[i]? = some link →
    s.Settled frame.node link.entityId
  kept : ∀ f ∈ s.found, (∃ id ∈ f.ids, id ∈ s.done) ∨ f.ids.Sublist s.path

section

variable {g : DependencyGraph} {starts : List String} {s s' : Search} {top : Frame}
  {outer : List Frame} {link : Link} {place : Nat} {source target : String}

theorem Settled.mono (h : s.Settled source target) (hmet : s.met.Sublist s'.met)
    (hfound : s.found ⊆ s'.found) : s'.Settled source target := by
  rcases h with heq | hlater | ⟨f, hf, hends⟩
  · exact .inl heq
  · exact .inr (.inl (hlater.trans hmet))
  · exact .inr (.inr ⟨f, hfound hf, hends⟩)

/-- What was followed stays settled when one more link of the innermost entity is. -/
theorem opened_advance (h : Explored g s) (hframes : s.frames = top :: outer)
    (hlink : (g.dependencies top.node)[top.next]? = some link) (hmet : s.met.Sublist s'.met)
    (hfound : s.found ⊆ s'.found) (hsettled : s'.Settled top.node link.entityId) :
    ∀ frame ∈ (s.advance top outer).frames, ∀ i < frame.next, ∀ link,
      (g.dependencies frame.node)[i]? = some link → s'.Settled frame.node link.entityId := by
  intro frame hframe i hi link' hlink'
  rcases List.mem_cons.mp hframe with rfl | hframe
  · rcases Nat.lt_succ_iff_lt_or_eq.mp hi with hi | rfl
    · have hold : s.Settled top.node link'.entityId :=
        h.opened top (hframes ▸ List.mem_cons_self) i hi link' hlink'
      exact hold.mono hmet hfound
    · rw [show link' = link from Option.some.inj (hlink'.symm.trans hlink)]
      exact hsettled
  · have hold : s.Settled frame.node link'.entityId :=
      h.opened frame (hframes ▸ List.mem_cons_of_mem top hframe) i hi link' hlink'
    exact hold.mono hmet hfound

/-! ### Cycles that were recorded before -/

/-- A recorded cycle with the signature of one that is cut out of the path has the same ids in the
same order. -/
theorem eq_of_signature_eq {f : Found} {ids : List String} (hpath : s.path.Nodup)
    (hdone : ∀ id ∈ s.path, id ∉ s.done) (hids : ids.Sublist s.path)
    (hkept : (∃ id ∈ f.ids, id ∈ s.done) ∨ f.ids.Sublist s.path)
    (hsign : signature f.ids = signature ids) : f.ids = ids := by
  have hperm : f.ids.Perm ids := (isRotated_of_signature_eq hsign).perm
  rcases hkept with ⟨id, hid, hleft⟩ | hsub
  · exact absurd hleft (hdone id (hids.subset (hperm.subset hid)))
  · exact (hpath.perm_iff_eq_of_sublist hsub hids).mp hperm

/-- Whether or not a cycle is recorded a second time, the link that closes it is the one that closes
a recorded cycle. -/
theorem closes_record (h : Explored g s) (hrecorded : Recorded g starts s) (haligned : Aligned g s)
    (hframes : s.frames = top :: outer)
    (hplace : s.onStack.lookup link.entityId = some place) :
    (s.record (s.closeAt place link)).Closes top.node link.entityId := by
  have hhead := head?_closeAt haligned hplace
  have hlast := getLast?_closeAt haligned hframes hplace
  rcases record_cases s (s.closeAt place link) with ⟨hseen, heq⟩ | ⟨_, heq⟩
  · -- nothing of the path was left, so the cycle of the same signature is cut out of the path too
    obtain ⟨f, hf, hsign⟩ := (hrecorded.seen _).mp hseen
    have hdone : ∀ id ∈ s.path, id ∉ s.done := fun id hid hleft =>
      (List.nodup_append.mp haligned.distinct).2.2 id hid id hleft rfl
    have hsame : f.ids = (s.closeAt place link).ids :=
      eq_of_signature_eq haligned.nodup_path hdone (List.drop_sublist place s.path)
        (h.kept f hf) hsign
    rw [heq]
    exact ⟨f, hf, hsame ▸ hhead, hsame ▸ hlast⟩
  · rw [heq]
    exact ⟨_, List.mem_append_right _ (List.mem_singleton_self _), hhead, hlast⟩

/-! ### Steps -/

theorem found_subset_record (c : Found) : s.found ⊆ (s.record c).found := by
  rcases record_cases s c with ⟨_, heq⟩ | ⟨_, heq⟩
  · rw [heq]
    exact List.Subset.refl _
  · rw [heq]
    exact List.subset_append_left _ _

theorem kept_record (h : Explored g s) :
    ∀ f ∈ (s.record (s.closeAt place link)).found,
      (∃ id ∈ f.ids, id ∈ s.done) ∨ f.ids.Sublist s.path := by
  intro f hf
  rcases record_cases s (s.closeAt place link) with ⟨_, heq⟩ | ⟨_, heq⟩
  · exact h.kept f (heq ▸ hf)
  · rw [heq] at hf
    rcases List.mem_append.mp hf with hf | hf
    · exact h.kept f hf
    · rw [List.mem_singleton.mp hf]
      exact .inr (List.drop_sublist place s.path)

namespace Explored

theorem leave (h : Explored g s) (haligned : Aligned g s) (hframes : s.frames = top :: outer)
    (hlink : (g.dependencies top.node)[top.next]? = none) :
    Explored g (s.leave top.node outer) := by
  have hpath := haligned.path_eq hframes
  have hmet : (s.leave top.node outer).met = s.met := by
    show s.path.dropLast ++ top.node :: s.done = s.path ++ s.done
    rw [hpath, List.dropLast_concat, List.append_assoc, List.singleton_append]
  have hmono : ∀ {a b}, s.Settled a b → (s.leave top.node outer).Settled a b := fun hold =>
    hold.mono (hmet ▸ List.Sublist.refl _) (List.Subset.refl _)
  refine ⟨fun id hid link hlink' => ?done, fun frame hframe i hi link hlink' => ?opened,
    fun f hf => ?kept⟩
  case done =>
    rcases List.mem_cons.mp hid with rfl | hid
    · obtain ⟨i, hi⟩ := List.mem_iff_getElem?.mp hlink'
      have hlength := (List.getElem?_eq_some_iff.mp hi).1
      have hnext := List.getElem?_eq_none_iff.mp hlink
      exact hmono (h.opened top (hframes ▸ List.mem_cons_self) i (by omega) link hi)
    · exact hmono (h.done id hid link hlink')
  case opened =>
    exact hmono (h.opened frame (hframes ▸ List.mem_cons_of_mem top hframe) i hi link hlink')
  case kept =>
    rcases h.kept f hf with ⟨id, hid, hleft⟩ | hsub
    · exact .inl ⟨id, hid, List.mem_cons_of_mem _ hleft⟩
    · -- without the id that is left, what was a part of the path is one of the shorter path
      by_cases hmem : top.node ∈ f.ids
      · exact .inl ⟨top.node, hmem, List.mem_cons_self⟩
      · refine .inr ?_
        show f.ids.Sublist s.path.dropLast
        rw [hpath] at hsub ⊢
        rw [List.dropLast_concat]
        obtain ⟨front, last, hids, hfront, hlast⟩ := List.sublist_append_iff.mp hsub
        rcases List.sublist_singleton.mp hlast with rfl | rfl
        · rw [hids, List.append_nil]
          exact hfront
        · exact absurd (hids ▸ List.mem_append_right _ (List.mem_singleton_self _)) hmem

theorem pass (h : Explored g s) (haligned : Aligned g s) (hframes : s.frames = top :: outer)
    (hlink : (g.dependencies top.node)[top.next]? = some link)
    (hpass : link.entityId = top.node ∨ link.entityId ∈ s.done) :
    Explored g (s.advance top outer) := by
  have hsettled : (s.advance top outer).Settled top.node link.entityId := by
    rcases hpass with hself | hdone
    · exact .inl hself.symm
    · have htop : [top.node].Sublist s.path := by
        rw [haligned.path_eq hframes]
        exact List.sublist_append_right _ _
      exact .inr (.inl (htop.append (List.singleton_sublist.mpr hdone)))
  refine ⟨fun id hid link' hlink' => ?done, ?opened, h.kept⟩
  case done =>
    exact (h.done id hid link' hlink').mono (List.Sublist.refl _) (List.Subset.refl _)
  case opened =>
    exact opened_advance h hframes hlink (List.Sublist.refl _) (List.Subset.refl _) hsettled

theorem close (h : Explored g s) (hrecorded : Recorded g starts s) (haligned : Aligned g s)
    (hframes : s.frames = top :: outer)
    (hlink : (g.dependencies top.node)[top.next]? = some link)
    (hplace : s.onStack.lookup link.entityId = some place) :
    Explored g ((s.advance top outer).record (s.closeAt place link)) := by
  -- following the link changes neither the path nor what was recorded
  have hcommute : (s.advance top outer).record (s.closeAt place link) =
      (s.record (s.closeAt place link)).advance top outer := by
    unfold record advance
    dsimp only
    split <;> rfl
  obtain ⟨_, hpath, _, _, hdone⟩ := record_frames (s := s) (s.closeAt place link)
  have hmet : s.met.Sublist ((s.record (s.closeAt place link)).advance top outer).met := by
    show s.met.Sublist ((s.record _).path ++ (s.record _).done)
    rw [hpath, hdone]
    exact List.Sublist.refl _
  have hfound := found_subset_record (s := s) (s.closeAt place link)
  have hopened := opened_advance h hframes hlink hmet hfound
    (.inr (.inr (closes_record h hrecorded haligned hframes hplace)))
  rw [hcommute]
  refine ⟨fun id hid link' hlink' => ?done, hopened, fun f hf => ?kept⟩
  case done =>
    change id ∈ (s.record _).done at hid
    exact (h.done id (hdone ▸ hid) link' hlink').mono hmet hfound
  case kept =>
    show (∃ id ∈ f.ids, id ∈ (s.record _).done) ∨ f.ids.Sublist (s.record _).path
    rw [hpath, hdone]
    exact kept_record h f hf

theorem enter (h : Explored g s) (haligned : Aligned g s) (hframes : s.frames = top :: outer)
    (hlink : (g.dependencies top.node)[top.next]? = some link) :
    Explored g ((s.advance top outer).enter link) := by
  have hmet : s.met.Sublist ((s.advance top outer).enter link).met :=
    (List.sublist_append_left s.path [link.entityId]).append (List.Sublist.refl s.done)
  have hsettled : ((s.advance top outer).enter link).Settled top.node link.entityId := by
    have htop : [top.node].Sublist s.path := by
      rw [haligned.path_eq hframes]
      exact List.sublist_append_right _ _
    exact .inr (.inl ((htop.append (List.Sublist.refl _)).trans (List.sublist_append_left _ _)))
  refine ⟨fun id hid link' hlink' => ?done, fun frame hframe => ?opened, fun f hf => ?kept⟩
  case done =>
    exact (h.done id hid link' hlink').mono hmet (List.Subset.refl _)
  case opened =>
    rcases List.mem_cons.mp hframe with rfl | hframe
    · exact fun i hi => absurd hi (Nat.not_lt_zero i)
    · exact opened_advance h hframes hlink hmet (List.Subset.refl _) hsettled frame hframe
  case kept =>
    exact (h.kept f hf).imp_right fun hsub => hsub.trans (List.sublist_append_left _ _)

theorem startAt (h : Explored g s) (hrecorded : Recorded g starts s) (haligned : Aligned g s)
    (hclosed : s.frames = []) (start : String) : Explored g (s.startAt start) := by
  have hpath := haligned.path_eq_nil hclosed
  have hmet : s.met.Sublist (s.startAt start).met := by
    rw [met, hpath]
    exact List.sublist_append_right _ _
  refine ⟨fun id hid link hlink => ?done, fun frame hframe i hi => ?opened, fun f hf => ?kept⟩
  case done =>
    exact (h.done id hid link hlink).mono hmet (List.Subset.refl _)
  case opened =>
    rw [List.mem_singleton.mp hframe] at hi
    exact absurd hi (Nat.not_lt_zero i)
  case kept =>
    rcases h.kept f hf with hleft | hsub
    · exact .inl hleft
    · -- nothing that was recorded is empty
      have htwo := (hrecorded.closed f hf).two
      rw [hpath, List.sublist_nil] at hsub
      rw [hsub] at htwo
      cases htwo

theorem initial : Explored g initial := ⟨nofun, nofun, nofun⟩

end Explored

theorem Next.explored (hnext : Next g starts s s') (haligned : Aligned g s)
    (hrecorded : Recorded g starts s) (h : Explored g s) : Explored g s' := by
  cases hnext with
  | start _ _ hclosed => exact h.startAt hrecorded haligned hclosed _
  | move hmove =>
    cases hmove with
    | leave hframes hlink => exact h.leave haligned hframes hlink
    | pass hframes hlink hpass => exact h.pass haligned hframes hlink hpass
    | close hframes hlink _ hplace => exact h.close hrecorded haligned hframes hlink hplace
    | enter hframes hlink _ _ => exact h.enter haligned hframes hlink

theorem explored_of_next (hsteps : Relation.ReflTransGen (Next g starts) s s')
    (haligned : Aligned g s) (hrecorded : Recorded g starts s) (h : Explored g s) :
    Explored g s' := by
  induction hsteps with
  | refl => exact h
  | tail hsteps hnext ih =>
    exact hnext.explored (aligned_of_next hsteps haligned).1
      (recorded_of_next hsteps haligned hrecorded) ih

/-! ### The end of all searches -/

theorem idxOf_lt_of_sublist {ids : List String} (h : ids.Nodup)
    (hsub : [source, target].Sublist ids) : ids.idxOf source < ids.idxOf target := by
  have hpairs : ids.Pairwise fun a b => ids.idxOf a < ids.idxOf b := by
    rw [List.pairwise_iff_getElem]
    intro i j hi hj hij
    rw [h.idxOf_getElem i hi, h.idxOf_getElem j hj]
    exact hij
  exact List.pairwise_iff_forall_sublist.mp hpairs hsub

variable (haligned : Aligned g s) (hrecorded : Recorded g starts s) (h : Explored g s)
  (hclosed : s.frames = [])
include haligned hrecorded h hclosed

/-- At the end an edge leads from what was left to what was left, and it closes a recorded cycle
unless the places in the list do not go back. -/
theorem closed_of_explored (hmem : source ∈ s.done) (hedge : g.Edge source target) :
    target ∈ s.done ∧ (s.Closes source target ∨ s.done.idxOf source ≤ s.done.idxOf target) := by
  obtain ⟨kind, hlink⟩ := hedge
  have hmet : s.met = s.done := by
    rw [met, haligned.path_eq_nil hclosed, List.nil_append]
  have hdistinct : s.done.Nodup := hmet ▸ haligned.distinct
  have hsettled : source = target ∨ [source, target].Sublist s.met ∨ s.Closes source target :=
    h.done source hmem ⟨target, kind⟩ hlink
  rcases hsettled with rfl | hlater | hcloses
  · exact ⟨hmem, .inr (Nat.le_refl _)⟩
  · rw [hmet] at hlater
    have hlt := idxOf_lt_of_sublist hdistinct hlater
    exact ⟨hlater.subset (List.mem_cons_of_mem _ List.mem_cons_self), .inr hlt.le⟩
  · refine ⟨?_, .inl hcloses⟩
    obtain ⟨f, hf, hhead, _⟩ := hcloses
    rw [← hmet]
    exact hrecorded.met f hf (List.mem_of_head? hhead)

theorem mem_done_of_walk (hmem : source ∈ s.done)
    (hwalk : Relation.ReflTransGen g.Edge source target) : target ∈ s.done := by
  induction hwalk with
  | refl => exact hmem
  | tail _ hedge ih => exact (closed_of_explored haligned hrecorded h hclosed ih hedge).1

/-- On a walk between what was left an edge closes a recorded cycle, unless the places in the list do
not go back. -/
theorem place_le_or_recorded (hmem : source ∈ s.done)
    (hwalk : Relation.ReflTransGen g.Edge source target) :
    (∃ a b, Relation.ReflTransGen g.Edge source a ∧ g.Edge a b ∧
        Relation.ReflTransGen g.Edge b target ∧ s.Closes a b) ∨
      s.done.idxOf source ≤ s.done.idxOf target := by
  induction hwalk with
  | refl => exact .inr (Nat.le_refl _)
  | @tail mid target hwalk hedge ih =>
    rcases ih with ⟨a, b, hfirst, hmiddle, hlast, hcloses⟩ | hle
    · exact .inl ⟨a, b, hfirst, hmiddle, hlast.tail hedge, hcloses⟩
    · have hmid := mem_done_of_walk haligned hrecorded h hclosed hmem hwalk
      rcases (closed_of_explored haligned hrecorded h hclosed hmid hedge).2 with hcloses | hle'
      · exact .inl ⟨mid, target, hwalk, hedge, .refl, hcloses⟩
      · exact .inr (Nat.le_trans hle hle')

end

end CodeAtlas.Cycles.Search
