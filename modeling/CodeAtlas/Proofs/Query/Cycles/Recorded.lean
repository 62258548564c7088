import CodeAtlas.Proofs.Query.Cycles.Search

/-!
# What the search records

A link back to the path closes the cycle that is cut out of the path at the place of the link. What
was recorded up to any state of a search is closed, can be reached from a start, and is there once.

* `Found.Closed`           each id of a cycle leads to the next one, and the last one to the first;
* `closed_closeAt`         what a link back to the path closes is closed;
* `Search.Recorded`        what holds of the cycles that were recorded;
* `recorded_of_next`       this holds of every state.
-/

namespace CodeAtlas

namespace DependencyGraph

/-- an edge of the graph, of some kind -/
def Edge (g : DependencyGraph) (source target : String) : Prop :=
  ∃ kind, ⟨target, kind⟩ ∈ g.dependencies source

end DependencyGraph

namespace Cycles

/-- distinct ids, each of which leads to the next one by the link of its place, and the last one to
the first -/
structure Found.Closed (g : DependencyGraph) (f : Found) : Prop where
  two : 2 ≤ f.ids.length
  distinct : f.ids.Nodup
  length : f.links.length = f.ids.length
  edges : ∀ i a b, f.ids[i]? = some a → f.ids[(i + 1) % f.ids.length]? = some b →
    ∃ kind, f.links[i]? = some kind ∧ ⟨b, kind⟩ ∈ g.dependencies a

namespace Search

/-! ### The cycle that a link closes -/

section

variable {g : DependencyGraph} {s : Search} {top : Frame} {outer : List Frame} {link : Link}
  {place : Nat} (h : Aligned g s) (hframes : s.frames = top :: outer)
  (hplace : s.onStack.lookup link.entityId = some place)
include h hplace

theorem head?_closeAt : (s.closeAt place link).ids.head? = some link.entityId := by
  show (s.path.drop place).head? = _
  rw [List.head?_drop]
  exact (h.places _ _).mp hplace

include hframes

/-- Only the last place on the path is the one of the innermost entity. -/
theorem place_lt (hne : link.entityId ≠ top.node) : place + 1 < s.path.length := by
  have hmem := (h.places _ _).mp hplace
  rw [h.path_eq hframes] at hmem ⊢
  rw [List.length_append, List.length_singleton]
  rcases getElem?_concat_eq_some.mp hmem with hbefore | ⟨-, hlast⟩
  · exact Nat.succ_lt_succ (List.getElem?_eq_some_iff.mp hbefore).1
  · exact absurd hlast hne

theorem getLast?_closeAt : (s.closeAt place link).ids.getLast? = some top.node := by
  have hlt := (List.getElem?_eq_some_iff.mp ((h.places _ _).mp hplace)).1
  show (s.path.drop place).getLast? = _
  rw [List.getLast?_drop, if_neg (by omega), h.path_eq hframes, List.getLast?_concat]

theorem closed_closeAt (hlink : link ∈ g.dependencies top.node) (hne : link.entityId ≠ top.node) :
    (s.closeAt place link).Closed g := by
  have hlt := place_lt h hframes hplace hne
  have hlinks := h.length
  have hids : (s.closeAt place link).ids = s.path.drop place := rfl
  have hkinds : (s.closeAt place link).links = s.pathLinks.drop place ++ [link.kind] := rfl
  have hlength : (s.closeAt place link).ids.length = s.path.length - place := List.length_drop
  refine ⟨by omega, ?distinct, ?length, fun i a b ha hb => ?edges⟩
  case distinct =>
    rw [hids]
    exact (List.drop_sublist place s.path).nodup h.nodup_path
  case length =>
    rw [hlength, hkinds, List.length_append, List.length_singleton, List.length_drop]
    omega
  case edges =>
    have hi := (List.getElem?_eq_some_iff.mp ha).1
    rw [hlength] at hi hb
    rw [hkinds]
    by_cases hlast : i + 1 < s.path.length - place
    · rw [Nat.mod_eq_of_lt hlast, hids, List.getElem?_drop] at hb
      rw [hids, List.getElem?_drop] at ha
      obtain ⟨kind, hkind, hedge⟩ := h.edges (place + i) a b ha hb
      exact ⟨kind, getElem?_concat_eq_some.mpr (.inl (List.getElem?_drop.trans hkind)), hedge⟩
    · -- the last id leads to the first one by the link itself
      have hi' : i + 1 = s.path.length - place := by omega
      rw [hi', Nat.mod_self, ← List.head?_eq_getElem?, head?_closeAt h hplace,
        Option.some_inj] at hb
      have hgetLast := getLast?_closeAt h hframes hplace
      rw [List.getLast?_eq_getElem?, hlength, ← hi', Nat.add_sub_cancel, ha,
        Option.some_inj] at hgetLast
      have hplaceLinks : i = (s.pathLinks.drop place).length := by
        rw [List.length_drop]
        omega
      rw [hgetLast, ← hb]
      exact ⟨link.kind, getElem?_concat_eq_some.mpr (.inr ⟨hplaceLinks, rfl⟩), hlink⟩

end

/-! ### Recorded cycles -/

/-- what was recorded is closed, met and there once, and what was met can be reached -/
structure Recorded (g : DependencyGraph) (starts : List String) (s : Search) : Prop where
  seen : ∀ sign, sign ∈ s.seen ↔ ∃ f ∈ s.found, signature f.ids = sign
  once : (s.found.map fun f => signature f.ids).Nodup
  closed : ∀ f ∈ s.found, f.Closed g
  met : ∀ f ∈ s.found, f.ids ⊆ s.met
  reached : ∀ id ∈ s.met, ∃ start ∈ starts, Relation.ReflTransGen g.Edge start id

section

variable {g : DependencyGraph} {starts : List String} {s s' : Search}

/-- A cycle is recorded unless one with the same signature was. -/
theorem record_cases (s : Search) (c : Found) :
    signature c.ids ∈ s.seen ∧ s.record c = s ∨
      signature c.ids ∉ s.seen ∧
        s.record c = { s with seen := signature c.ids :: s.seen, found := s.found ++ [c] } := by
  unfold record
  dsimp only
  by_cases hseen : signature c.ids ∈ s.seen
  · exact .inl ⟨hseen, if_pos (List.contains_iff_mem.mpr hseen)⟩
  · exact .inr ⟨hseen, if_neg (by rwa [List.contains_iff_mem])⟩

namespace Recorded

theorem of_found (h : Recorded g starts s) (hseen : s'.seen = s.seen) (hfound : s'.found = s.found)
    (hsub : s.met ⊆ s'.met)
    (hreached : ∀ id ∈ s'.met, ∃ start ∈ starts, Relation.ReflTransGen g.Edge start id) :
    Recorded g starts s' where
  seen := by
    rw [hseen, hfound]
    exact h.seen
  once := by
    rw [hfound]
    exact h.once
  closed := by
    rw [hfound]
    exact h.closed
  met f hf := List.Subset.trans (h.met f (hfound ▸ hf)) hsub
  reached := hreached

theorem record (h : Recorded g starts s) {c : Found} (hclosed : c.Closed g) (hmet : c.ids ⊆ s.met) :
    Recorded g starts (s.record c) := by
  rcases record_cases s c with ⟨_, heq⟩ | ⟨hnew, heq⟩
  · rw [heq]
    exact h
  · rw [heq]
    refine ⟨fun sign => ?seen, ?once, fun f hf => ?closed, fun f hf => ?met, h.reached⟩
    case seen =>
      show sign ∈ signature c.ids :: s.seen ↔ ∃ f ∈ s.found ++ [c], _
      rw [List.mem_cons, h.seen]
      constructor
      · rintro (rfl | ⟨f, hf, hsign⟩)
        · exact ⟨c, List.mem_append_right _ (List.mem_singleton_self c), rfl⟩
        · exact ⟨f, List.mem_append_left _ hf, hsign⟩
      · rintro ⟨f, hf, hsign⟩
        rcases List.mem_append.mp hf with hf | hf
        · exact .inr ⟨f, hf, hsign⟩
        · exact .inl (List.mem_singleton.mp hf ▸ hsign.symm)
    case once =>
      show ((s.found ++ [c]).map fun f => signature f.ids).Nodup
      rw [List.map_append, List.map_singleton, ← List.concat_eq_append]
      refine .concat (fun hmem => hnew ?_) h.once
      obtain ⟨f, hf, hsign⟩ := List.mem_map.mp hmem
      exact (h.seen _).mpr ⟨f, hf, hsign⟩
    case closed =>
      rcases List.mem_append.mp hf with hf | hf
      · exact h.closed f hf
      · exact List.mem_singleton.mp hf ▸ hclosed
    case met =>
      rcases List.mem_append.mp hf with hf | hf
      · exact h.met f hf
      · exact List.mem_singleton.mp hf ▸ hmet

theorem initial : Recorded g starts initial where
  seen _ := ⟨nofun, fun ⟨_, hf, _⟩ => nomatch hf⟩
  once := .nil
  closed := nofun
  met := nofun
  reached := nofun

end Recorded

theorem Next.recorded (hnext : Next g starts s s') (haligned : Aligned g s)
    (h : Recorded g starts s) : Recorded g starts s' := by
  have hsub := hnext.met_subset haligned
  cases hnext with
  | start hmem _ hclosed =>
    rw [met, haligned.path_eq_nil hclosed, List.nil_append] at hsub
    refine h.of_found rfl rfl (by rwa [met, haligned.path_eq_nil hclosed]) fun id hid => ?_
    rcases List.mem_cons.mp hid with rfl | hid
    · exact ⟨_, hmem, .refl⟩
    · exact h.reached id (List.mem_append_right _ hid)
  | move hmove =>
    cases hmove with
    | @leave top outer hframes _ =>
      refine h.of_found rfl rfl hsub fun id hid => h.reached id ?_
      change id ∈ s.path.dropLast ++ top.node :: s.done at hid
      rw [met, haligned.path_eq hframes, List.append_assoc, List.singleton_append]
      rwa [haligned.path_eq hframes, List.dropLast_concat] at hid
    | pass _ _ _ => exact h.of_found rfl rfl hsub h.reached
    | @close top outer link place hframes hlink hne hplace =>
      have hclosed := closed_closeAt haligned hframes hplace (List.mem_of_getElem? hlink) hne
      have hadvance : Recorded g starts (s.advance top outer) :=
        h.of_found rfl rfl (List.Subset.refl _) h.reached
      exact hadvance.record hclosed
        (List.Subset.trans (List.drop_subset place s.path) (List.subset_append_left _ _))
    | @enter top outer link hframes hlink _ _ =>
      refine h.of_found rfl rfl hsub fun id hid => ?_
      change id ∈ (s.path ++ [link.entityId]) ++ s.done at hid
      simp only [List.mem_append, List.mem_singleton] at hid
      rcases hid with (hid | rfl) | hid
      · exact h.reached id (List.mem_append_left _ hid)
      · have htop : top.node ∈ s.path := by
          rw [haligned.path_eq hframes]
          exact List.mem_append_right _ (List.mem_singleton_self _)
        obtain ⟨start, hstart, hreach⟩ := h.reached _ (List.mem_append_left _ htop)
        exact ⟨start, hstart, hreach.tail ⟨link.kind, List.mem_of_getElem? hlink⟩⟩
      · exact h.reached id (List.mem_append_right _ hid)

theorem recorded_of_next (hsteps : Relation.ReflTransGen (Next g starts) s s')
    (haligned : Aligned g s) (h : Recorded g starts s) : Recorded g starts s' := by
  induction hsteps with
  | refl => exact h
  | tail hsteps hnext ih => exact hnext.recorded (aligned_of_next hsteps haligned).1 ih

end

end Search

end Cycles

end CodeAtlas
