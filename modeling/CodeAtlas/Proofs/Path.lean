import CodeAtlas.Path

/-!
# Plain paths

A path whose components are plain names is read back from its text, whatever the directory from
which the text is seen.

* `componentsOf_text`   the components of a text are those of the path;
* `normalize_text`      the text of a plain path is normalized already;
* `resolve_isPlain`     a text seen from a plain directory names a plain path.
-/

namespace CodeAtlas.Path

/-- a name that an entry of a directory can have -/
def IsPlainName (name : String) : Prop :=
  name ≠ "" ∧ name ≠ "." ∧ name ≠ ".." ∧ '/' ∉ name.toList

def IsPlain (p : Path) : Prop := ∀ name ∈ p.components, IsPlainName name

/-! ### Splitting -/

theorem intercalate_slash (name : List Char) (names : List (List Char)) :
    ['/'].intercalate (name :: names) = name ++ names.flatMap ('/' :: ·) := by
  induction names generalizing name with
  | nil => rw [List.intercalate_singleton, List.flatMap_nil, List.append_nil]
  | cons next names ih =>
    rw [List.intercalate_cons_cons, ih, List.flatMap_cons, List.append_assoc]
    rfl

/-- Each name with a slash before it is one part, after an empty one. -/
theorem splitOn_names {names : List (List Char)} (h : ∀ name ∈ names, '/' ∉ name) :
    (names.flatMap ('/' :: ·)).splitOn '/' = [] :: names := by
  rw [← List.nil_append (names.flatMap _), ← intercalate_slash]
  exact List.splitOn_intercalate _ (List.forall_mem_cons.mpr ⟨List.not_mem_nil, h⟩)
    (List.cons_ne_nil _ _)

/-- No part has a slash. -/
theorem slash_notMem_split {s : String} {part : List Char} (h : part ∈ split s) : '/' ∉ part := by
  have hall : ∀ (cs : List Char), ∀ part ∈ cs.splitOn '/', '/' ∉ part := by
    intro cs
    induction cs with
    | nil => intro part hpart; rw [List.mem_singleton.mp hpart]; exact List.not_mem_nil
    | cons c cs ih =>
      intro part hpart
      rw [List.splitOn_cons_eq_if_modifyHead] at hpart
      split at hpart
      · rcases List.mem_cons.mp hpart with rfl | hpart
        · exact List.not_mem_nil
        · exact ih part hpart
      · rename_i hc
        obtain ⟨first, rest, hparts⟩ := List.exists_cons_of_ne_nil (List.splitOn_ne_nil '/' cs)
        rw [hparts] at hpart ih
        rcases List.mem_cons.mp hpart with rfl | hpart
        · rw [List.mem_cons, not_or]
          exact ⟨fun heq => hc (beq_iff_eq.mpr heq.symm), ih first List.mem_cons_self⟩
        · exact ih part (List.mem_cons_of_mem _ hpart)
  exact hall s.toList part h

theorem componentsOf_ne {s name : String} (h : name ∈ componentsOf s) :
    name ≠ "" ∧ name ≠ "." ∧ '/' ∉ name.toList := by
  obtain ⟨hmem, hne⟩ := List.mem_filter.mp h
  obtain ⟨part, hpart, rfl⟩ := List.mem_map.mp hmem
  rw [Bool.and_eq_true, bne_iff_ne, bne_iff_ne] at hne
  exact ⟨hne.1, hne.2, by rw [String.toList_ofList]; exact slash_notMem_split hpart⟩

/-! ### Texts -/

variable {p base : Path}

theorem text_of_ne_nil (h : p.components ≠ []) :
    p.text = String.join (p.components.map ("/" ++ ·)) := by
  unfold text
  split
  · contradiction
  · rfl

theorem toList_text_of_ne_nil (h : p.components ≠ []) :
    p.text.toList = (p.components.map String.toList).flatMap ('/' :: ·) := by
  rw [text_of_ne_nil h, String.toList_join, List.flatMap_map, List.flatMap_map]
  congr 1
  funext name
  rw [String.toList_append]
  rfl

theorem isAbsolute_text (p : Path) : isAbsolute p.text = true := by
  by_cases h : p.components = []
  · have htext : p.text = "/" := by
      unfold text
      rw [h]
    rw [htext]
    decide
  · rw [isAbsolute, toList_text_of_ne_nil h]
    cases hc : p.components with
    | nil => exact absurd hc h
    | cons name rest => rfl

/-- The components of a plain path are read back from its text. -/
theorem componentsOf_text (h : p.IsPlain) : componentsOf p.text = p.components := by
  by_cases hnil : p.components = []
  · have htext : p.text = "/" := by
      unfold text
      rw [hnil]
    rw [htext, hnil]
    decide
  · have hslash : ∀ name ∈ p.components.map String.toList, '/' ∉ name := by
      intro name hname
      obtain ⟨part, hpart, rfl⟩ := List.mem_map.mp hname
      exact (h part hpart).2.2.2
    have hparts : (split p.text).map String.ofList = "" :: p.components := by
      rw [split, toList_text_of_ne_nil hnil, splitOn_names hslash, List.map_cons, List.map_map]
      exact congrArg ("" :: ·) ((List.map_congr_left fun s _ => String.ofList_toList).trans
        (List.map_id' _))
    rw [componentsOf, hparts, List.filter_cons_of_neg (by decide)]
    refine List.filter_eq_self.mpr fun name hname => ?_
    obtain ⟨hempty, hdot, _⟩ := h name hname
    rw [Bool.and_eq_true, bne_iff_ne, bne_iff_ne]
    exact ⟨hempty, hdot⟩

/-! ### Resolving -/

theorem foldl_enter {names path : List String} (h : ∀ name ∈ names, name ≠ "..") :
    names.foldl enter path = path ++ names := by
  induction names generalizing path with
  | nil => exact (List.append_nil path).symm
  | cons name names ih =>
    rw [List.foldl_cons, enter, if_neg (h name List.mem_cons_self),
      ih fun n hn => h n (List.mem_cons_of_mem _ hn), List.append_assoc]
    rfl

/-- The text of a plain path names it, from wherever it is seen. -/
theorem resolve_text (h : p.IsPlain) : base.resolve p.text = p := by
  rw [resolve, isAbsolute_text, if_pos rfl, componentsOf_text h,
    foldl_enter fun name hname => (h name hname).2.2.1]
  rfl

theorem normalize_text (h : p.IsPlain) : base.normalize p.text = p.text := by
  rw [normalize, resolve_text h]

theorem isBelow_text {root : Path} (h : p.IsPlain) :
    root.isBelow p.text = root.components.isPrefixOf p.components := by
  rw [isBelow, isAbsolute_text, Bool.true_and, componentsOf_text h]

theorem isPlain_concat {path : List String} {name : String}
    (hpath : ∀ part ∈ path, IsPlainName part) (hname : IsPlainName name) :
    ∀ part ∈ path ++ [name], IsPlainName part := by
  intro part hpart
  rcases List.mem_append.mp hpart with hpart | hpart
  · exact hpath part hpart
  · exact List.mem_singleton.mp hpart ▸ hname

/-- Names stay plain when a component is entered. -/
theorem enter_isPlain {path : List String} {component : String}
    (hpath : ∀ name ∈ path, IsPlainName name)
    (h : component ≠ "" ∧ component ≠ "." ∧ '/' ∉ component.toList) :
    ∀ name ∈ enter path component, IsPlainName name := by
  obtain ⟨hempty, hdot, hslash⟩ := h
  rw [enter]
  split
  · exact fun name hname => hpath name ((List.dropLast_sublist path).subset hname)
  · rename_i hup
    exact isPlain_concat hpath ⟨hempty, hdot, hup, hslash⟩

theorem foldl_enter_isPlain {names path : List String} (hpath : ∀ name ∈ path, IsPlainName name)
    (hnames : ∀ name ∈ names, name ≠ "" ∧ name ≠ "." ∧ '/' ∉ name.toList) :
    ∀ name ∈ names.foldl enter path, IsPlainName name := by
  induction names generalizing path with
  | nil => exact hpath
  | cons first rest ih =>
    exact ih (enter_isPlain hpath (hnames first List.mem_cons_self))
      fun name hname => hnames name (List.mem_cons_of_mem _ hname)

/-- A text that is seen from a plain directory names a plain path. -/
theorem resolve_isPlain (hbase : base.IsPlain) (s : String) : (base.resolve s).IsPlain := by
  refine foldl_enter_isPlain ?_ fun name hname => componentsOf_ne hname
  split
  · exact nofun
  · exact hbase

end CodeAtlas.Path
