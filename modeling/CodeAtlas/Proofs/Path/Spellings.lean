import CodeAtlas.Proofs.Path
import Mathlib.Logic.Relation

/-!
# Spellings of a path

A path text can be spelled in many ways: with `.` components, with slashes that are repeated or at the
end, with detours into a directory and out of it again, and with `..` above the root. All of them name
one path, so they are kept under one key in the graph.

* `componentsOf_append_slash`   the components of a text that is put together at a slash;
* `resolve_join`                a joined text is resolved part after part;
* `Respelling`                  one text spells another one with something put in;
* `resolve_of_respelling`       which changes nothing about the path that is named;
* `spelling_normalize`          an absolute text is a spelling of its normal form;
* `normalize_canonical`         normal forms, and which texts have the same one.
-/

namespace CodeAtlas.Path

variable {base : Path} {s s' u v : String}

/-! ### Texts put together at a slash -/

theorem split_append_slash (s s' : String) : split (s ++ "/" ++ s') = split s ++ split s' := by
  have hslash : (s ++ "/" ++ s').toList = s.toList ++ '/' :: s'.toList := by
    rw [String.toList_append, String.toList_append, List.append_assoc]
    rfl
  rw [split, hslash, List.splitOn_append_cons_self, ← split, ← split]

theorem componentsOf_append_slash (s s' : String) :
    componentsOf (s ++ "/" ++ s') = componentsOf s ++ componentsOf s' := by
  unfold componentsOf
  rw [split_append_slash, List.map_append, List.filter_append]

theorem componentsOf_empty : componentsOf "" = [] := by decide

theorem componentsOf_slash_end (s : String) : componentsOf (s ++ "/") = componentsOf s := by
  have h := componentsOf_append_slash s ""
  rwa [String.append_empty, componentsOf_empty, List.append_nil] at h

theorem componentsOf_slash_append (s : String) : componentsOf ("/" ++ s) = componentsOf s := by
  have h := componentsOf_append_slash "" s
  rwa [String.empty_append, componentsOf_empty, List.nil_append] at h

theorem componentsOf_name {name : String} (h : '/' ∉ name.toList) (hempty : name ≠ "")
    (hdot : name ≠ ".") : componentsOf name = [name] := by
  rw [componentsOf, split, List.splitOn_eq_singleton h, List.map_singleton,
    String.ofList_toList, List.filter_cons_of_pos]
  · rfl
  · rw [Bool.and_eq_true, bne_iff_ne, bne_iff_ne]
    exact ⟨hempty, hdot⟩

/-! ### Joined texts -/

theorem isAbsolute_append (h : u ≠ "") (v : String) : isAbsolute (u ++ v) = isAbsolute u := by
  have hne : u.toList ≠ [] := fun hnil => h (String.toList_eq_nil_iff.mp hnil)
  rw [isAbsolute, isAbsolute, String.toList_append]
  cases hu : u.toList with
  | nil => exact absurd hu hne
  | cons c cs => rfl

theorem isAbsolute_of_notMem (h : '/' ∉ s.toList) : isAbsolute s = false := by
  rw [isAbsolute, beq_eq_false_iff_ne]
  exact fun hhead => h (List.mem_of_head? hhead)

theorem exists_append_slash (h : s.toList.getLast? = some '/') : ∃ s', s = s' ++ "/" := by
  obtain ⟨cs, hcs⟩ := List.getLast?_eq_some_iff.mp h
  refine ⟨String.ofList cs, String.toList_inj.mp ?_⟩
  rw [hcs, String.toList_append, String.toList_ofList]
  rfl

/-- A relative text is joined to another one at a slash. -/
theorem componentsOf_join (s : String) {q : String} (hq : isAbsolute q = false) :
    componentsOf (join s q) = componentsOf s ++ componentsOf q := by
  unfold join
  split
  · rename_i h
    rw [hq, Bool.or_false, decide_eq_true_iff] at h
    rw [h, componentsOf_empty, List.nil_append]
  · split
    · rename_i h
      obtain ⟨s', rfl⟩ := exists_append_slash (beq_iff_eq.mp h)
      rw [componentsOf_append_slash, componentsOf_slash_end]
    · exact componentsOf_append_slash s q

theorem isAbsolute_join (s : String) {q : String} (hq : isAbsolute q = false) :
    isAbsolute (join s q) = isAbsolute s := by
  unfold join
  split
  · rename_i h
    rw [hq, Bool.or_false, decide_eq_true_iff] at h
    rw [h, hq]
    rfl
  · rename_i h
    have hs : s ≠ "" := by simpa [hq] using h
    split
    · exact isAbsolute_append hs q
    · have hs' : s ++ "/" ≠ "" := fun hnil => hs (String.append_eq_empty_iff.mp hnil).1
      rw [isAbsolute_append hs', isAbsolute_append hs]

/-- A joined text names what its second part names, seen from where its first part leads. -/
theorem resolve_join (base : Path) (s : String) {q : String} (hq : isAbsolute q = false) :
    base.resolve (join s q) = (base.resolve s).resolve q := by
  unfold resolve
  rw [isAbsolute_join s hq, componentsOf_join s hq, List.foldl_append, hq]
  rfl

/-! ### Spellings -/

/-- A component may begin after `u`, and `v` alone is not absolute where nothing comes before it. -/
def Opens (u v : String) : Prop := (∃ s, u = s ++ "/") ∨ u = "" ∧ isAbsolute v = false

/-- The first text spells the second one with something put in that does not count. -/
inductive Respelling : String → String → Prop
  /-- a slash after a slash -/
  | slash (u v : String) : Respelling (u ++ "/" ++ ("/" ++ v)) (u ++ "/" ++ v)
  /-- a slash at the end -/
  | slashEnd (u : String) (h : u ≠ "") : Respelling (u ++ "/") u
  /-- a component `.` -/
  | dot (u v : String) (h : Opens u v) : Respelling (u ++ ("." ++ "/" ++ v)) (u ++ v)
  /-- a detour into a directory and out of it again -/
  | detour (u name v : String) (h : Opens u v) (hname : IsPlainName name) :
    Respelling (u ++ (name ++ "/.." ++ "/" ++ v)) (u ++ v)
  /-- `..` above the root -/
  | aboveRoot (v : String) : Respelling ("/" ++ (".." ++ "/" ++ v)) ("/" ++ v)

theorem Opens.componentsOf_append (h : Opens u v) :
    componentsOf (u ++ v) = componentsOf u ++ componentsOf v := by
  rcases h with ⟨s, rfl⟩ | ⟨rfl, -⟩
  · rw [componentsOf_append_slash, componentsOf_slash_end]
  · rw [String.empty_append, componentsOf_empty, List.nil_append]

theorem Opens.isAbsolute_append_eq {w : String} (h : Opens u v) (hw : isAbsolute w = false) :
    isAbsolute (u ++ w) = isAbsolute (u ++ v) := by
  rcases h with ⟨s, rfl⟩ | ⟨rfl, hv⟩
  · have hne : s ++ "/" ≠ "" := fun hnil => absurd (String.append_eq_empty_iff.mp hnil).2 (by decide)
    rw [isAbsolute_append hne, isAbsolute_append hne]
  · rw [String.empty_append, String.empty_append, hw, hv]

/-- Components that lead back to where they start from can be put in wherever one may begin. -/
theorem Opens.resolve_insert {w : String} (h : Opens u v) (hne : w ≠ "")
    (hw : isAbsolute w = false) (hback : ∀ path, (componentsOf w).foldl enter path = path) :
    base.resolve (u ++ (w ++ "/" ++ v)) = base.resolve (u ++ v) := by
  have hrelative : isAbsolute (w ++ "/" ++ v) = false := by
    rw [String.append_assoc, isAbsolute_append hne, hw]
  have hopens : Opens u (w ++ "/" ++ v) := h.imp_right fun h => ⟨h.1, hrelative⟩
  unfold resolve
  rw [h.isAbsolute_append_eq hrelative, hopens.componentsOf_append, h.componentsOf_append,
    componentsOf_append_slash, List.foldl_append, List.foldl_append, List.foldl_append, hback]

theorem resolve_of_respelling (h : Respelling s s') : base.resolve s = base.resolve s' := by
  cases h with
  | slash u v =>
    have hcomponents : componentsOf (u ++ "/" ++ ("/" ++ v)) = componentsOf (u ++ "/" ++ v) := by
      rw [componentsOf_append_slash, componentsOf_append_slash,
        componentsOf_slash_append]
    have hne : u ++ "/" ≠ "" := fun hnil => absurd (String.append_eq_empty_iff.mp hnil).2 (by decide)
    unfold resolve
    rw [hcomponents, isAbsolute_append hne, isAbsolute_append hne]
  | slashEnd u h =>
    unfold resolve
    rw [componentsOf_slash_end, isAbsolute_append h]
  | dot u v h => exact h.resolve_insert (by decide) (by decide) fun path => rfl
  | detour u name v h hname =>
    obtain ⟨hempty, hdot, hup, hslash⟩ := hname
    have hcomponents : componentsOf (name ++ "/..") = [name, ".."] := by
      rw [show "/.." = "/" ++ ".." from rfl, ← String.append_assoc, componentsOf_append_slash,
        componentsOf_name hslash hempty hdot]
      rfl
    have habs : isAbsolute (name ++ "/..") = false := by
      rw [isAbsolute_append hempty]
      exact isAbsolute_of_notMem hslash
    refine h.resolve_insert (fun hnil => hempty (String.append_eq_empty_iff.mp hnil).1) habs
      fun path => ?_
    rw [hcomponents]
    show enter (enter path name) ".." = path
    rw [enter, enter, if_neg hup, if_pos rfl, List.dropLast_concat]
  | aboveRoot v =>
    have hne : ("/" : String) ≠ "" := by decide
    unfold resolve
    rw [isAbsolute_append hne, isAbsolute_append hne, componentsOf_slash_append,
      componentsOf_slash_append, componentsOf_append_slash]
    rfl

theorem normalize_eq_of_spellings (h : Relation.EqvGen Respelling s s') :
    base.normalize s = base.normalize s' := by
  have hresolve : base.resolve s = base.resolve s' := by
    induction h with
    | rel s s' h => exact resolve_of_respelling h
    | refl s => rfl
    | symm s s' _ ih => exact ih.symm
    | trans s s' s'' _ _ ih ih' => exact ih.trans ih'
  rw [normalize, normalize, hresolve]

/-! ### From a text to its normal form -/

/-- each part of a text with a slash after it -/
def slashed (parts : List String) : String := String.join (parts.map (· ++ "/"))

/-- each name of a path with a slash before it -/
def trail (names : List String) : String := String.join (names.map ("/" ++ ·))

theorem slashed_cons (part : String) (parts : List String) :
    slashed (part :: parts) = part ++ "/" ++ slashed parts := by
  rw [slashed, List.map_cons, String.join_cons]
  rfl

theorem trail_concat (names : List String) (name : String) :
    trail (names ++ [name]) = trail names ++ "/" ++ name := by
  rw [trail, List.map_append, String.join_append, List.map_singleton, String.join_cons,
    String.join_nil, String.append_empty, ← String.append_assoc]
  rfl

theorem flatMap_append_slash {parts : List (List Char)} (h : parts ≠ []) :
    parts.flatMap (· ++ ['/']) = ['/'].intercalate parts ++ ['/'] := by
  obtain ⟨part, parts, rfl⟩ := List.exists_cons_of_ne_nil h
  rw [intercalate_slash]
  clear h
  induction parts generalizing part with
  | nil => rw [List.flatMap_singleton, List.flatMap_nil, List.append_nil]
  | cons next parts ih =>
    rw [List.flatMap_cons, ih, List.flatMap_cons]
    simp only [List.append_assoc, List.cons_append, List.nil_append]

theorem slashed_split (s : String) : slashed ((split s).map String.ofList) = s ++ "/" := by
  have htext : ∀ part : List Char, (String.ofList part ++ "/").toList = part ++ ['/'] := by
    intro part
    rw [String.toList_append, String.toList_ofList]
    rfl
  have hchars := flatMap_append_slash (List.splitOn_ne_nil '/' s.toList)
  rw [List.intercalate_splitOn] at hchars
  refine String.toList_inj.mp ?_
  rw [slashed, String.toList_join, List.map_map, List.flatMap_map, String.toList_append, split]
  simp only [Function.comp_apply, htext]
  exact hchars

/-- One component after a path spells the path that it is entered to. -/
theorem trail_enter {names : List String} {part : String}
    (hnames : ∀ name ∈ names, IsPlainName name) (rest : String) :
    Relation.EqvGen Respelling (trail names ++ "/" ++ (part ++ "/" ++ rest))
      (trail (enter names part) ++ "/" ++ rest) := by
  rw [enter]
  split
  · rename_i hup
    subst hup
    rcases List.eq_nil_or_concat names with rfl | ⟨front, last, rfl⟩
    · exact .rel _ _ (.aboveRoot _)
    · rw [List.concat_eq_append] at *
      have hdetour : trail (front ++ [last]) ++ "/" ++ (".." ++ "/" ++ rest) =
          trail front ++ "/" ++ (last ++ "/.." ++ "/" ++ rest) := by
        rw [trail_concat, show "/.." = "/" ++ ".." from rfl]
        simp only [String.append_assoc]
      rw [List.dropLast_concat, hdetour]
      exact .rel _ _ (.detour _ _ _ (.inl ⟨_, rfl⟩)
        (hnames last (List.mem_append_right _ List.mem_cons_self)))
  · have hstep : trail names ++ "/" ++ (part ++ "/" ++ rest) =
        trail (names ++ [part]) ++ "/" ++ rest := by
      rw [trail_concat]
      simp only [String.append_assoc]
    rw [hstep]
    exact .refl _

/-- Parts are taken one after another, as `enter` takes the components among them. -/
theorem trail_slashed {parts names : List String} (hnames : ∀ name ∈ names, IsPlainName name)
    (hparts : ∀ part ∈ parts, '/' ∉ part.toList) :
    Relation.EqvGen Respelling (trail names ++ "/" ++ slashed parts)
      (trail ((parts.filter fun part => part != "" && part != ".").foldl enter names) ++ "/") := by
  induction parts generalizing names with
  | nil =>
    rw [show slashed [] = "" from rfl, String.append_empty]
    exact .refl _
  | cons part rest ih =>
    have hrest := fun part hpart => hparts part (List.mem_cons_of_mem _ hpart)
    rw [slashed_cons]
    by_cases hempty : part = ""
    · subst hempty
      rw [List.filter_cons_of_neg (by decide), String.empty_append]
      exact .trans _ _ _ (.rel _ _ (.slash _ _)) (ih hnames hrest)
    by_cases hdot : part = "."
    · subst hdot
      rw [List.filter_cons_of_neg (by decide)]
      exact .trans _ _ _ (.rel _ _ (.dot _ _ (.inl ⟨_, rfl⟩))) (ih hnames hrest)
    have hkept : (part :: rest).filter (fun part => part != "" && part != ".") =
        part :: rest.filter fun part => part != "" && part != "." := by
      refine List.filter_cons_of_pos ?_
      rw [Bool.and_eq_true, bne_iff_ne, bne_iff_ne]
      exact ⟨hempty, hdot⟩
    rw [hkept, List.foldl_cons]
    have hentered := enter_isPlain hnames ⟨hempty, hdot, hparts part List.mem_cons_self⟩
    exact .trans _ _ _ (trail_enter hnames _) (ih hentered hrest)

theorem exists_slash_append (h : isAbsolute s = true) : ∃ rest, s = "/" ++ rest := by
  obtain ⟨cs, hcs⟩ := List.head?_eq_some_iff.mp (beq_iff_eq.mp h)
  refine ⟨String.ofList cs, String.toList_inj.mp ?_⟩
  rw [hcs, String.toList_append, String.toList_ofList, String.toList_ofList]
  rfl

/-- An absolute text is a spelling of its normal form. -/
theorem spelling_normalize (base : Path) (h : isAbsolute s = true) :
    Relation.EqvGen Respelling s (base.normalize s) := by
  obtain ⟨rest, rfl⟩ := exists_slash_append h
  have hne : "/" ++ rest ≠ "" := fun hnil => absurd (String.append_eq_empty_iff.mp hnil).1 (by decide)
  have hparts : ∀ part ∈ (split rest).map String.ofList, '/' ∉ part.toList := by
    intro part hpart
    obtain ⟨cs, hcs, rfl⟩ := List.mem_map.mp hpart
    rw [String.toList_ofList]
    exact slash_notMem_split hcs
  have hresolve : base.resolve ("/" ++ rest) = ⟨(componentsOf rest).foldl enter []⟩ := by
    rw [resolve, h, if_pos rfl, componentsOf_slash_append]
  have hend : Relation.EqvGen Respelling ("/" ++ rest) ("/" ++ rest ++ "/") :=
    .symm _ _ (.rel _ _ (.slashEnd _ hne))
  have hroot : ∀ name ∈ ([] : List String), IsPlainName name := fun _ h => absurd h List.not_mem_nil
  have hpath := trail_slashed hroot hparts
  rw [slashed_split, show trail [] = "" from rfl, String.empty_append, ← String.append_assoc] at hpath
  refine .trans _ _ _ hend (.trans _ _ _ hpath ?_)
  rw [normalize, hresolve]
  show Relation.EqvGen Respelling (trail ((componentsOf rest).foldl enter []) ++ "/") _
  cases hnames : (componentsOf rest).foldl enter [] with
  | nil => exact .refl _
  | cons name names =>
    have htext : trail (name :: names) ≠ "" := by
      rw [trail, List.map_cons, String.join_cons]
      intro hnil
      have hslash := (String.append_eq_empty_iff.mp (String.append_eq_empty_iff.mp hnil).1).1
      exact absurd hslash (by decide)
    exact .rel _ _ (.slashEnd _ htext)

/-- Absolute texts have the same normal form exactly if they are spellings of each other. -/
theorem normalize_eq_iff (base : Path) (h : isAbsolute s = true) (h' : isAbsolute s' = true) :
    base.normalize s = base.normalize s' ↔ Relation.EqvGen Respelling s s' := by
  refine ⟨fun heq => ?_, normalize_eq_of_spellings⟩
  have hs' := spelling_normalize base h'
  rw [← heq] at hs'
  exact .trans _ _ _ (spelling_normalize base h) (.symm _ _ hs')

/-! ### Normal forms -/

/-- the root, or plain names with one slash before each of them -/
def IsNormal (s : String) : Prop :=
  s = "/" ∨ ∃ names : List String, names ≠ [] ∧ (∀ name ∈ names, IsPlainName name) ∧
    s = String.join (names.map ("/" ++ ·))

theorem isNormal_text {p : Path} (h : p.IsPlain) : IsNormal p.text := by
  by_cases hnil : p.components = []
  · left
    unfold text
    rw [hnil]
  · exact .inr ⟨p.components, hnil, h, text_of_ne_nil hnil⟩

/-- **Normal forms are canonical.** Seen from a plain directory every text has a normal form, which is
the normal form of itself. A text may be normalized before another one is joined to it. All spellings
of one text have the same normal form, and absolute texts of one normal form are spellings of each
other. -/
theorem normalize_canonical (base : Path) (hbase : base.IsPlain) :
    (∀ s, IsNormal (base.normalize s)) ∧
    (∀ s, base.normalize (base.normalize s) = base.normalize s) ∧
    (∀ s q, isAbsolute q = false →
      base.normalize (join s q) = base.normalize (join (base.normalize s) q)) ∧
    (∀ s s', Relation.EqvGen Respelling s s' → base.normalize s = base.normalize s') ∧
    ∀ s s', isAbsolute s = true → isAbsolute s' = true →
      (base.normalize s = base.normalize s' ↔ Relation.EqvGen Respelling s s') := by
  have hplain := resolve_isPlain hbase
  refine ⟨fun s => isNormal_text (hplain s), fun s => normalize_text (hplain s), ?join,
    fun s s' => normalize_eq_of_spellings, fun s s' => normalize_eq_iff base⟩
  case join =>
    intro s q hq
    rw [normalize, normalize, resolve_join base s hq, resolve_join base _ hq, normalize,
      resolve_text (hplain s)]

/-- A text that leaves a directory again, joined to one that starts with a dot and ends with a
slash. -/
theorem normalize_canonical_detour :
    (Path.mk ["repo"]).IsPlain ∧ isAbsolute "../main.ts" = false ∧
      Relation.EqvGen Respelling "./src/" "src" ∧
      IsNormal ((Path.mk ["repo"]).normalize "./src/") ∧
      (Path.mk ["repo"]).normalize (join "./src/" "../main.ts") =
        (Path.mk ["repo"]).normalize (join "/repo/src" "../main.ts") ∧
      (Path.mk ["repo"]).normalize "./src/" = (Path.mk ["repo"]).normalize "src" := by
  have hbase : (Path.mk ["repo"]).IsPlain := by
    unfold IsPlain IsPlainName
    decide
  have hspelling : Relation.EqvGen Respelling "./src/" "src" :=
    .trans _ _ _ (.rel _ _ (.dot "" "src/" (.inr ⟨rfl, by decide⟩)))
      (.rel _ _ (.slashEnd "src" (by decide)))
  obtain ⟨hnormal, -, hjoin, hspellings, -⟩ := normalize_canonical ⟨["repo"]⟩ hbase
  have hsrc : (Path.mk ["repo"]).normalize "./src/" = "/repo/src" := by decide
  have hjoined := hjoin "./src/" "../main.ts" (by decide)
  rw [hsrc] at hjoined
  exact ⟨hbase, by decide, hspelling, hnormal _, hjoined, hspellings _ _ hspelling⟩

end CodeAtlas.Path
