import CodeAtlas.Proofs.Integrity
import CodeAtlas.Proofs.Pattern.Like
import CodeAtlas.Proofs.Store.Order

/-!
# Searching for names

A search gives the entities that have a text in their name, sorted by name and place, as far as its
limit goes. The characters of the text stand for themselves; letters are compared without their case
as far as ASCII goes.

* `takeSigned_signedLimit`   a limit that is no signed number is none;
* `readAll_eq_filterMap`     what is read from rows, as a function of them;
* `Finds`                    what a search gives, by the entities that are stored;
* `Finds.literal_iff`        when the same is found by the characters themselves;
* `search_finds`             every search within the length of a pattern gives that, in any store.
-/

namespace CodeAtlas.Entities

variable {t : Tables} {rs : List EntityRow} {es stored : List Entity} {text : String} {limit : Nat}

/-! ### Limits -/

theorem signedLimit_eq : signedLimit limit = Int.bmod limit 18446744073709551616 := rfl

theorem signedLimit_of_lt (h : limit < 2 ^ 63) : signedLimit limit = limit := by
  rw [signedLimit_eq, Int.bmod_def]
  omega

theorem signedLimit_of_le (h : 2 ^ 63 ≤ limit) (h' : limit < 2 ^ 64) : signedLimit limit < 0 := by
  rw [signedLimit_eq, Int.bmod_def]
  omega

theorem takeSigned_signedLimit (h : limit < 2 ^ 64) (rs : List EntityRow) :
    takeSigned (signedLimit limit) rs = if limit < 2 ^ 63 then rs.take limit else rs := by
  split
  · rename_i hlt
    rw [signedLimit_of_lt hlt]
    rfl
  · rename_i hle
    have hneg := signedLimit_of_le (Nat.not_lt.mp hle) h
    cases hsigned : signedLimit limit with
    | ofNat n =>
      rw [hsigned] at hneg
      exact absurd hneg (Int.not_lt.mpr (Int.natCast_nonneg n))
    | negSucc n => rfl

/-! ### Reading -/

theorem readAll_eq_filterMap (h : readAll rs = .ok es) :
    es = rs.filterMap fun r => r.read.toOption := by
  have hread := readAll_eq_ok h
  clear h
  induction hread with
  | nil => rfl
  | @cons r e rs es hr _ ih => rw [List.filterMap_cons_some (by rw [hr]; rfl), ← ih]

theorem readAll_of_subset (h : readAll rs = .ok es) {rs' : List EntityRow} (hsub : rs' ⊆ rs) :
    readAll rs' = .ok (rs'.filterMap fun r => r.read.toOption) := by
  have hread : ∀ r ∈ rs', ∃ e, r.read = .ok e := by
    intro r hr
    obtain ⟨e, -, he⟩ := exists_of_forall₂_of_mem_left (readAll_eq_ok h) (hsub hr)
    exact ⟨e, he⟩
  obtain ⟨es', hes'⟩ := exists_mapM_eq_ok hread
  have hall : readAll rs' = .ok es' := by rw [readAll, hes']
  rw [hall, ← readAll_eq_filterMap hall]

theorem exists_all (h : t.HoldsGraph) : ∃ stored, all t = .ok stored := by
  obtain ⟨stored, hstored⟩ := exists_readAll h (List.Subset.refl t.entityRows)
  exact ⟨stored, by rw [all, exists_rows h]; exact hstored⟩

theorem readAll_take (h : readAll rs = .ok es) (n : Nat) : readAll (rs.take n) = .ok (es.take n) := by
  have hmapM : ∀ (rs : List EntityRow) (es : List Entity) (n : Nat),
      List.Forall₂ (fun r e => r.read = .ok e) rs es →
      (rs.take n).mapM EntityRow.read = .ok (es.take n) := by
    intro rs es n hread
    induction hread generalizing n with
    | nil => rw [List.take_nil, List.take_nil]; rfl
    | @cons r e rs es hr _ ih =>
      cases n with
      | zero => rfl
      | succ n =>
        rw [List.take_succ_cons, List.take_succ_cons, List.mapM_cons, hr, ih n]
        rfl
  rw [readAll, hmapM rs es n (readAll_eq_ok h)]

/-- A test of the names of rows is one of the names of the entities that they are read as. -/
theorem filterMap_filter_name (test : String → Bool) (rs : List EntityRow) :
    (rs.filter fun r => test r.name).filterMap (fun r => r.read.toOption) =
      (rs.filterMap fun r => r.read.toOption).filter fun e => test e.name := by
  rw [List.filterMap_filter, List.filter_filterMap]
  refine List.filterMap_congr fun r _ => ?_
  cases hr : r.read with
  | error fault => split <;> rfl
  | ok e =>
    show _ = Option.filter _ (some e)
    rw [← (EntityRow.read_eq_ok hr).2.1, Option.filter_some]
    rfl

/-! ### Searches -/

/-- What a search gives: of the stored entities that have the text in their name, the first ones up to
the limit, sorted by name and place. Characters are compared after `fold`. -/
def Finds (fold : Char → Char) (t : Tables) (stored : List Entity) (text : String) (limit : Nat) :
    Prop :=
  ∃ hits : List Entity,
    hits.Perm (stored.filter fun e => text.toList.map fold <:+: e.name.toList.map fold) ∧
      hits.Pairwise (fun e e' => e.label ≤ e'.label) ∧
      search text limit t = .ok (if limit < 2 ^ 63 then hits.take limit else hits)

namespace Finds

variable {fold fold' : Char → Char}

/-- Only the names that have the text in them count, not how characters were compared for it. -/
theorem congr (h : Finds fold t stored text limit)
    (hsame : ∀ e ∈ stored, text.toList.map fold <:+: e.name.toList.map fold ↔
      text.toList.map fold' <:+: e.name.toList.map fold') : Finds fold' t stored text limit := by
  obtain ⟨hits, hperm, hsorted, hgiven⟩ := h
  refine ⟨hits, hperm.trans (.of_eq (List.filter_congr fun e he => ?_)), hsorted, hgiven⟩
  rw [decide_eq_decide]
  exact hsame e he

/-- A search that its limit does not cut off gives every name that has the text in it. -/
theorem exists_given (h : Finds fold t stored text limit) (hle : stored.length ≤ limit) :
    ∃ found, search text limit t = .ok found ∧
      ∀ e ∈ stored, e ∈ found ↔ text.toList.map fold <:+: e.name.toList.map fold := by
  obtain ⟨hits, hperm, -, hgiven⟩ := h
  have hlength : hits.length ≤ limit :=
    hperm.length_eq ▸ Nat.le_trans (List.length_filter_le _ _) hle
  rw [List.take_of_length_le hlength, ite_self] at hgiven
  refine ⟨hits, hgiven, fun e he => ?_⟩
  rw [hperm.mem_iff, List.mem_filter, and_iff_right he, decide_eq_true_iff]

/-- What is found by characters as they are read is what is found by the characters themselves, where
each of them is read as itself. -/
theorem literal (h : Finds (fun c => (Like.readChar c).toLower) t stored text limit)
    (htext : '\uFFFE' ∉ text.toList ∧ '\uFFFF' ∉ text.toList)
    (hnames : ∀ e ∈ stored, '\uFFFE' ∉ e.name.toList ∧ '\uFFFF' ∉ e.name.toList) :
    Finds Char.toLower t stored text limit := by
  have hread : ∀ s : String, '\uFFFE' ∉ s.toList ∧ '\uFFFF' ∉ s.toList →
      (s.toList.map fun c => (Like.readChar c).toLower) = s.toList.map Char.toLower := by
    rintro s ⟨hfirst, hlast⟩
    refine List.map_congr_left fun c hc => ?_
    rw [Like.readChar_of_ne (fun heq => hfirst (heq ▸ hc)) fun heq => hlast (heq ▸ hc)]
  exact h.congr fun e he => by rw [hread text htext, hread e.name (hnames e he)]

/-- A text that is in a name is also in it as it is read. -/
theorem read_infix {name : String}
    (h : text.toList.map Char.toLower <:+: name.toList.map Char.toLower) :
    text.toList.map (fun c => (Like.readChar c).toLower) <:+:
      name.toList.map fun c => (Like.readChar c).toLower := by
  have hmap := h.map Like.readChar
  simp only [List.map_map, Function.comp_def, ← Like.toLower_readChar] at hmap
  exact hmap

/-- Where the limit does not cut off, the characters themselves would find the same if and only if no
name has the text in it as it is read only. -/
theorem literal_iff (h : Finds (fun c => (Like.readChar c).toLower) t stored text limit)
    (hle : stored.length ≤ limit) :
    Finds Char.toLower t stored text limit ↔ ∀ e ∈ stored,
      text.toList.map (fun c => (Like.readChar c).toLower) <:+:
          (e.name.toList.map fun c => (Like.readChar c).toLower) →
        text.toList.map Char.toLower <:+: e.name.toList.map Char.toLower := by
  constructor
  · intro hliteral e he hread
    obtain ⟨found, hfound, hmem⟩ := h.exists_given hle
    obtain ⟨found', hfound', hmem'⟩ := hliteral.exists_given hle
    obtain rfl := Except.ok.inj (hfound.symm.trans hfound')
    exact (hmem' e he).mp ((hmem e he).mpr hread)
  · exact fun hall => h.congr fun e he => ⟨hall e he, read_infix⟩

end Finds

/-- the rows that match the pattern for a part, sorted by name and place -/
def hitRows (text : String) (rs : List EntityRow) : List EntityRow :=
  (rs.filter fun r => Like.matches (Like.containing text) r.name).mergeSort nameLe

theorem matching_of_le {pattern : String} (h : pattern.utf8ByteSize ≤ Like.maxBytes) (signed : Int)
    (rs : List EntityRow) :
    matching pattern signed rs = .ok (rs.filter fun r => Like.matches pattern r.name) := by
  rw [matching, if_neg fun hlong => Nat.not_lt.mpr h hlong.1]

theorem search_eq (hrows : rows t = .ok rs) (hlimit : limit < 2 ^ 64)
    (hlength : (Like.containing text).utf8ByteSize ≤ Like.maxBytes) :
    search text limit t =
      readAll (if limit < 2 ^ 63 then (hitRows text rs).take limit else hitRows text rs) := by
  rw [← takeSigned_signedLimit hlimit, search, hrows]
  generalize signedLimit limit = signed
  simp only [bind, Except.bind, matching_of_le hlength]
  rfl

theorem hitRows_subset (text : String) (rs : List EntityRow) : hitRows text rs ⊆ rs := fun _ hr =>
  (List.mem_filter.mp (List.mem_mergeSort.mp hr)).1

theorem search_eq_ok (hstored : all t = .ok stored) (hlimit : limit < 2 ^ 64)
    (hlength : (Like.containing text).utf8ByteSize ≤ Like.maxBytes)
    (htext : '\x00' ∉ text.toList) (hnames : ∀ e ∈ stored, '\x00' ∉ e.name.toList) :
    Finds (fun c => (Like.readChar c).toLower) t stored text limit := by
  obtain ⟨rs, hrows, hread⟩ := Tables.bind_eq_ok.mp hstored
  have hhits := readAll_of_subset hread (hitRows_subset text rs)
  refine ⟨(hitRows text rs).filterMap fun r => r.read.toOption, ?perm, ?sorted, ?given⟩
  case given =>
    rw [search_eq hrows hlimit hlength]
    split
    · exact readAll_take hhits limit
    · exact hhits
  case sorted =>
    have hlabel : ∀ (r r' : EntityRow) (e e' : Entity), r.read = .ok e → r'.read = .ok e' →
        nameLe r r' = true → e.label ≤ e'.label :=
      fun _ _ _ _ hr hr' => (EntityRow.nameLe_iff hr hr').mp
    exact pairwise_of_forall₂ hlabel (readAll_eq_ok hhits)
      (List.pairwise_mergeSort EntityRow.trans_nameLe EntityRow.total_nameLe _)
  case perm =>
    have hmatches : stored.filter (fun e => Like.matches (Like.containing text) e.name) =
        stored.filter fun e => Like.folded text <:+: Like.folded e.name := by
      refine List.filter_congr fun e he => ?_
      rw [Bool.eq_iff_iff, Like.matches_containing htext (hnames e he), decide_eq_true_iff]
    have hperm := (List.mergeSort_perm (rs.filter fun r =>
      Like.matches (Like.containing text) r.name) nameLe).filterMap fun r => r.read.toOption
    rw [filterMap_filter_name, ← readAll_eq_filterMap hread, hmatches] at hperm
    exact hperm

/-- **A search finds the names that have a text in them.** Let the pattern for the text be not too
long. In every state of every script that has the tables of the graph, the stored entities can be
listed. Wherever they can be listed, whatever wrote them, a search gives those of them that have the
text somewhere in their name, sorted by name and place, as far as its limit goes. The characters of the
text stand for themselves. They are compared without their case as far as ASCII goes, and as they are
read, which takes two noncharacters for another character. So the names found are those that have the
text itself in them if there is none of these two; and if the limit does not cut off, they are exactly
if no name has the text in it as it is read only. -/
theorem search_finds (text : String) (limit : Nat)
    (hlength : (Like.containing text).utf8ByteSize ≤ Like.maxBytes) (hlimit : limit < 2 ^ 64)
    (htext : '\x00' ∉ text.toList) :
    (∀ (migrated : Bool) (p : Script), ∀ state ∈ p.visited (Database.opened migrated),
      state.tables.entities.isSome = true → state.tables.relationships.isSome = true →
      ∃ stored, all state.tables = .ok stored) ∧
    ∀ (t : Tables) (stored : List Entity),
      all t = .ok stored → (∀ e ∈ stored, '\x00' ∉ e.name.toList) →
        Finds (fun c => (Like.readChar c).toLower) t stored text limit ∧
        ('\uFFFE' ∉ text.toList ∧ '\uFFFF' ∉ text.toList →
          (∀ e ∈ stored, '\uFFFE' ∉ e.name.toList ∧ '\uFFFF' ∉ e.name.toList) →
          Finds Char.toLower t stored text limit) ∧
        (stored.length ≤ limit → (Finds Char.toLower t stored text limit ↔ ∀ e ∈ stored,
          text.toList.map (fun c => (Like.readChar c).toLower) <:+:
              (e.name.toList.map fun c => (Like.readChar c).toLower) →
            text.toList.map Char.toLower <:+: e.name.toList.map Char.toLower)) := by
  constructor
  · intro migrated p state hstate hents hrels
    have hsound := (p.visited_sound (Database.opened_sound migrated) state hstate).tables
    exact exists_all (hsound.holdsGraph hents hrels)
  · intro t stored hstored hnames
    have hfinds := search_eq_ok hstored hlimit hlength htext hnames
    exact ⟨hfinds, hfinds.literal, hfinds.literal_iff⟩

theorem name_mem_of_all {names : List String}
    (hnames : (all t).map (fun stored => stored.map (·.name)) = .ok names)
    (hstored : all t = .ok stored) {e : Entity} (he : e ∈ stored) : e.name ∈ names := by
  rw [hstored] at hnames
  exact Except.ok.inj hnames ▸ List.mem_map_of_mem he

/-- stores a name with a percent sign, and one with a digit in its place -/
def storingPercent : Script :=
  .call (.resolve
    [⟨.function, "Rate_50%", "/a.ts", 1, 2, "typescript", none⟩,
      ⟨.function, "rate_500", "/a.ts", 3, 4, "typescript", none⟩] [])

/-- The percent sign and the underscore stand for themselves. -/
theorem search_finds_percent : ∃ state ∈ storingPercent.visited (Database.opened true), ∃ stored,
    all state.tables = .ok stored ∧
      Finds Char.toLower state.tables stored "TE_50%" 1 ∧
      (search "TE_50%" 1 state.tables).map (fun found => found.map (·.name)) =
        .ok ["Rate_50%"] := by
  have hmem := storingPercent.final_mem_visited (Database.opened true)
  obtain ⟨hall, hfinds⟩ :=
    search_finds "TE_50%" 1 (by decide +kernel) (by decide) (by decide +kernel)
  obtain ⟨stored, hstored⟩ := hall true storingPercent _ hmem
    (by rw [Database.opened_true]; decide +kernel)
    (by rw [Database.opened_true]; decide +kernel)
  have hnames : (all (storingPercent.run.runOn (Database.opened true)).2.tables).map
      (fun stored => stored.map (·.name)) = .ok ["Rate_50%", "rate_500"] := by
    rw [Database.opened_true]
    decide +kernel
  have hplain : ∀ name ∈ ["Rate_50%", "rate_500"], '\x00' ∉ name.toList ∧
      '\uFFFE' ∉ name.toList ∧ '\uFFFF' ∉ name.toList := by
    decide +kernel
  have hstoredPlain := fun e he => hplain (e : Entity).name (name_mem_of_all hnames hstored he)
  refine ⟨_, hmem, stored, hstored, ?_, ?_⟩
  · have hgiven := hfinds _ stored hstored fun e he => (hstoredPlain e he).1
    exact hgiven.2.1 (by decide +kernel) fun e he => (hstoredPlain e he).2
  · rw [Database.opened_true]
    decide +kernel

/-- stores a name that is a noncharacter -/
def storingNoncharacter : Script :=
  .call (.resolve [⟨.function, "\uFFFF", "/a.ts", 1, 2, "typescript", none⟩] [])

/-- Noncharacters are not told apart: a search for one of them finds the other. -/
theorem search_noncharacter :
    ∃ state ∈ storingNoncharacter.visited (Database.opened true), ∃ stored,
      all state.tables = .ok stored ∧ (∀ e ∈ stored, '\x00' ∉ e.name.toList) ∧
        (Like.containing "\uFFFE").utf8ByteSize ≤ Like.maxBytes ∧
        ¬ Finds Char.toLower state.tables stored "\uFFFE" 10 := by
  have hmem := storingNoncharacter.final_mem_visited (Database.opened true)
  have hnames : (all (storingNoncharacter.run.runOn (Database.opened true)).2.tables).map
      (fun stored => stored.map (·.name)) = .ok ["\uFFFF"] := by
    rw [Database.opened_true]
    decide +kernel
  have hfound : (search "\uFFFE" 10
      (storingNoncharacter.run.runOn (Database.opened true)).2.tables).map List.length = .ok 1 := by
    rw [Database.opened_true]
    decide +kernel
  cases hstored : all (storingNoncharacter.run.runOn (Database.opened true)).2.tables with
  | error fault => rw [hstored] at hnames; cases hnames
  | ok stored =>
    have hname : ∀ e ∈ stored, e.name = "\uFFFF" := fun e he =>
      List.mem_singleton.mp (name_mem_of_all hnames hstored he)
    refine ⟨_, hmem, stored, hstored, fun e he => ?_, by decide +kernel, ?_⟩
    · rw [hname e he]
      decide +kernel
    · rintro ⟨hits, hperm, -, hsearch⟩
      have hnone : (stored.filter fun e =>
          "\uFFFE".toList.map Char.toLower <:+: e.name.toList.map Char.toLower) = [] := by
        refine List.filter_eq_nil_iff.mpr fun e he => ?_
        rw [hname e he]
        decide +kernel
      rw [hnone] at hperm
      rw [hsearch, List.perm_nil.mp hperm] at hfound
      exact absurd (Except.ok.inj hfound) (by decide)

end CodeAtlas.Entities
