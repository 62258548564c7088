import CodeAtlas.Index.Discovery
import CodeAtlas.Proofs.Path

/-!
# The paths of a walk

In a tree of plain names, a walk lists plain paths at or below its root.

* `Node.IsPlain`    every name in the tree is plain;
* `mem_discover`    what is discovered: a plain path below the root, of a known language.
-/

namespace CodeAtlas

mutual

/-- every name in the tree is a name that an entry of a directory can have -/
def Node.IsPlain : Node → Prop
  | .file _ => True
  | .directory entries => entriesPlain entries

def entriesPlain : List (String × Node) → Prop
  | [] => True
  | (name, node) :: rest => Path.IsPlainName name ∧ node.IsPlain ∧ entriesPlain rest

end

/-- The trees in a plain directory are plain. -/
theorem isPlain_of_lookup {entries : List (String × Node)} {name : String} {node : Node}
    (h : entriesPlain entries) (hlookup : entries.lookup name = some node) : node.IsPlain := by
  induction entries with
  | nil => cases hlookup
  | cons entry rest ih =>
    obtain ⟨k, n⟩ := entry
    rw [List.lookup_cons] at hlookup
    split at hlookup
    · exact Option.some.inj hlookup ▸ h.2.1
    · exact ih h.2.2 hlookup

/-- The trees in a plain tree are plain. -/
theorem isPlain_of_find? {n node : Node} {names : List String} (h : n.IsPlain)
    (hfind : n.find? names = some node) : node.IsPlain := by
  induction names generalizing n with
  | nil => exact Option.some.inj hfind ▸ h
  | cons name names ih =>
    rw [Node.find?, Option.bind_eq_some_iff] at hfind
    obtain ⟨child, hchild, hrest⟩ := hfind
    cases n with
    | file content => cases hchild
    | directory entries => exact ih (isPlain_of_lookup h hchild) hrest

/-! ### Walks -/

/-- a plain path that begins with some components -/
def Path.IsPlainBelow (path : List String) (p : Path) : Prop :=
  path.isPrefixOf p.components = true ∧ p.IsPlain

theorem Path.IsPlainBelow.of_append {path : List String} {name : String} {p : Path}
    (h : p.IsPlainBelow (path ++ [name])) : p.IsPlainBelow path := by
  obtain ⟨hpre, hplain⟩ := h
  rw [List.isPrefixOf_iff_prefix] at hpre
  exact ⟨List.isPrefixOf_iff_prefix.mpr ((List.prefix_append path [name]).trans hpre), hplain⟩

mutual

theorem mem_walkEntry {filter : IgnoreFilter} : (node : Node) → node.IsPlain →
    ∀ {scopes : List Scope} {path : List String} {name : String},
      (∀ part ∈ path, Path.IsPlainName part) → Path.IsPlainName name →
      ∀ p ∈ walkEntry filter scopes path name node, p.IsPlainBelow path
  | .file _, _, scopes, path, name, hpath, hname, p, hp => by
    rw [walkEntry] at hp
    split at hp
    · rw [List.mem_singleton.mp hp]
      exact ⟨List.isPrefixOf_iff_prefix.mpr (List.prefix_append path [name]),
        Path.isPlain_concat hpath hname⟩
    · cases hp
  | .directory entries, h, scopes, path, name, hpath, hname, p, hp => by
    rw [walkEntry] at hp
    split at hp
    · exact (mem_walkEntries entries h (Path.isPlain_concat hpath hname) p hp).of_append
    · cases hp

theorem mem_walkEntries {filter : IgnoreFilter} : (entries : List (String × Node)) →
    entriesPlain entries → ∀ {scopes : List Scope} {path : List String},
      (∀ part ∈ path, Path.IsPlainName part) →
      ∀ p ∈ walkEntries filter scopes path entries, p.IsPlainBelow path
  | [], _, scopes, path, _, p, hp => by
    rw [walkEntries] at hp
    cases hp
  | (name, node) :: rest, h, scopes, path, hpath, p, hp => by
    rw [walkEntries] at hp
    rcases List.mem_append.mp hp with hp | hp
    · exact mem_walkEntry node h.2.1 hpath h.1 p hp
    · exact mem_walkEntries rest h.2.2 hpath p hp

end

/-- What is discovered below a plain root of a plain tree. -/
theorem mem_discover {disk : Disk} {root : Path} {excludes : List String} {p : Path}
    (htree : disk.root.IsPlain) (hroot : root.IsPlain) (hp : p ∈ discover disk root excludes) :
    p.IsPlain ∧ root.isBelow p.text = true ∧ (Language.detect p.text).isSome = true := by
  obtain ⟨hwalk, hlanguage⟩ := List.mem_filter.mp hp
  have hbelow : p.IsPlainBelow root.components := by
    rw [walk] at hwalk
    split at hwalk
    · cases hwalk
    · rw [List.mem_singleton.mp hwalk]
      exact ⟨List.isPrefixOf_iff_prefix.mpr (List.prefix_refl _), hroot⟩
    · rename_i entries hfind
      exact mem_walkEntries entries (isPlain_of_find? htree hfind) hroot p hwalk
  exact ⟨hbelow.2, (Path.isBelow_text hbelow.2).trans hbelow.1, hlanguage⟩

end CodeAtlas
