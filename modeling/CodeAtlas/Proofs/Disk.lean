import CodeAtlas.Disk
import Mathlib.Tactic.SplitIfs

/-!
# Written files

A file that was written is found again by the text of its path, and every directory on the way to a
path is still there.

* `Disk.Writable`              a path at which a file can be written;
* `Disk.write?_of_writable`    there, writing succeeds;
* `Disk.readText_of_write?`    what was written is what is read.
-/

namespace CodeAtlas

namespace Node

variable {node root root' : Node} {name : String} {path : List String} {es : List (String × Node)}

theorem lookup_setEntry (name k : String) (node : Node) (es : List (String × Node)) :
    (setEntry name node es).lookup k = if k = name then some node else es.lookup k := by
  have hcons : ∀ (k' : String) (v : Node) (rest : List (String × Node)),
      List.lookup k ((k', v) :: rest) = if k = k' then some v else rest.lookup k := by
    intro k' v rest
    rw [List.lookup_cons]
    by_cases hk : k = k'
    · rw [if_pos hk, hk, beq_self_eq_true]
    · rw [if_neg hk, beq_eq_false_iff_ne.mpr hk]
  induction es with
  | nil => exact hcons name node []
  | cons e rest ih =>
    obtain ⟨k', v⟩ := e
    rw [setEntry]
    by_cases hname : name = k'
    · rw [if_pos hname, hcons, hcons, ← hname]
      split <;> rfl
    · rw [if_neg hname]
      by_cases hlt : name < k'
      · rw [if_pos hlt, hcons]
      · rw [if_neg hlt, hcons, hcons, ih]
        by_cases hk : k = k'
        · rw [if_pos hk, if_pos hk, if_neg fun h => hname (h.symm.trans hk)]
        · rw [if_neg hk, if_neg hk]

/-- What was put at a path is found there. -/
theorem find?_put? (h : put? node path root = some root') : root'.find? path = some node := by
  induction path generalizing root root' with
  | nil =>
    rw [put?] at h
    rw [find?, h]
  | cons name rest ih =>
    cases root with
    | file content => cases h
    | directory es =>
      rw [put?] at h
      obtain ⟨below, hbelow, h⟩ := Option.bind_eq_some_iff.mp h
      obtain rfl := Option.some.inj h
      rw [find?, child?, entries, lookup_setEntry, if_pos rfl]
      exact ih hbelow

theorem find?_concat (name : String) (h : root.find? path = some (.directory es)) :
    root.find? (path ++ [name]) = es.lookup name := by
  induction path generalizing root with
  | nil =>
    obtain rfl := Option.some.inj h
    exact Option.bind_fun_some (es.lookup name)
  | cons first rest ih =>
    obtain ⟨below, hbelow, h⟩ := Option.bind_eq_some_iff.mp h
    rw [List.cons_append, find?, hbelow]
    exact ih h

/-- In a directory that is there, a node can be put. -/
theorem exists_put? (node : Node) (name : String) (h : root.find? path = some (.directory es)) :
    ∃ root', put? node (path ++ [name]) root = some root' := by
  induction path generalizing root with
  | nil =>
    obtain rfl := Option.some.inj h
    exact ⟨_, rfl⟩
  | cons first rest ih =>
    cases root with
    | file content => cases h
    | directory entries =>
      obtain ⟨below, hbelow, h⟩ := Option.bind_eq_some_iff.mp h
      obtain ⟨root', hput⟩ := ih h
      refine ⟨.directory (setEntry first root' entries), ?_⟩
      rw [List.cons_append, put?]
      change entries.lookup first = some below at hbelow
      rw [hbelow, Option.getD_some, hput]
      rfl

/-- A directory stays when a file is put where no directory is, and so do the names in it. -/
theorem exists_directory_of_put? {content : ByteArray} {target : List String}
    (hput : put? (.file content) target root = some root')
    (htarget : ∀ es, root.find? target ≠ some (.directory es))
    (h : root.find? path = some (.directory es)) :
    ∃ es', root'.find? path = some (.directory es') ∧
      ∀ k, (es.lookup k).isSome = true → (es'.lookup k).isSome = true := by
  induction target generalizing root root' path with
  | nil =>
    cases path with
    | nil => exact absurd h (htarget es)
    | cons first path =>
      cases root with
      | file content => cases h
      | directory entries => exact absurd rfl (htarget entries)
  | cons name rest ih =>
    cases root with
    | file content => cases hput
    | directory entries =>
      rw [put?] at hput
      obtain ⟨below', hbelow', hput⟩ := Option.bind_eq_some_iff.mp hput
      obtain rfl := Option.some.inj hput
      cases path with
      | nil =>
        obtain rfl := Node.directory.inj (Option.some.inj h)
        refine ⟨_, rfl, fun k hk => ?_⟩
        rw [lookup_setEntry]
        split
        · rfl
        · exact hk
      | cons first path =>
        obtain ⟨below, hbelow, h⟩ := Option.bind_eq_some_iff.mp h
        change entries.lookup first = some below at hbelow
        rw [find?, child?, Node.entries, lookup_setEntry]
        split_ifs with hfirst
        · subst hfirst
          rw [hbelow, Option.getD_some] at hbelow'
          have hfound : ∀ es, below.find? rest ≠ some (.directory es) := by
            intro es hes
            refine htarget es ?_
            rw [find?, child?, Node.entries, hbelow]
            exact hes
          exact ih hbelow' hfound h
        · rw [hbelow]
          exact ⟨es, h, fun _ hk => hk⟩

end Node

namespace Disk

variable {d d' : Disk} {s : String} {content : ByteArray} {here there : List String} {name : String}

/-- A file can be written at a path: its directory is there, and no directory has its name. -/
def Writable (d : Disk) (s : String) : Prop :=
  ∃ here name, d.target? s = some (here, name) ∧
    ∀ es, d.root.find? (here ++ [name]) ≠ some (.directory es)

theorem eq_ok_of_toOption {ε α : Type} {x : Except ε α} {a : α} (h : x.toOption = some a) :
    x = .ok a := by
  cases x with
  | ok b => exact congrArg Except.ok (Option.some.inj h)
  | error e => cases h

/-- The text of a path leads to a directory, and ends in a name that an entry of it may have. -/
structure LeadsTo (d : Disk) (s : String) (here : List String) (name : String) : Prop where
  directory : ∃ es, d.root.find? here = some (.directory es)
  notEmpty : name ≠ ""
  notDot : name ≠ "."
  notDots : name ≠ ".."
  nameFits : name.utf8ByteSize ≤ maxName
  noZero : s.toList.contains '\x00' = false
  fits : s.utf8ByteSize ≤ maxPath
  way : ∃ names, (Path.split s).map String.ofList = names ++ [name] ∧
    names.foldlM d.step (if Path.isAbsolute s then [] else d.base.components) = .ok here

theorem leadsTo_of_target? (h : d.target? s = some (here, name)) : d.LeadsTo s here name := by
  unfold target? at h
  obtain ⟨last, hlast, h⟩ := Option.bind_eq_some_iff.mp h
  obtain ⟨names, hnames⟩ := List.getLast?_eq_some_iff.mp hlast
  rw [hnames, List.dropLast_concat] at h
  dsimp only at h
  split at h
  · cases h
  · rename_i hname
    obtain ⟨path, hpath, h⟩ := Option.bind_eq_some_iff.mp h
    split at h
    · rename_i es hdirectory
      obtain ⟨rfl, rfl⟩ := Prod.mk.inj (Option.some.inj h)
      simp only [Bool.or_eq_true, Bool.not_eq_true', Bool.and_eq_false_iff, bne_eq_false_iff_eq,
        decide_eq_true_eq, decide_eq_false_iff_not, not_or, Decidable.not_not, Nat.not_lt] at hname
      obtain ⟨⟨⟨⟨⟨hempty, hdot⟩, hdots⟩, hsize⟩, hzero⟩, hpathSize⟩ := hname
      exact ⟨⟨es, hdirectory⟩, hempty, hdot, hdots, hsize, Bool.not_eq_true _ ▸ hzero, hpathSize,
        names, hnames, eq_ok_of_toOption hpath⟩
    · cases h

theorem write?_eq_some (h : d.write? s content = some d') :
    ∃ here name root, d.target? s = some (here, name) ∧
      (∀ es, d.root.find? (here ++ [name]) ≠ some (.directory es)) ∧
      Node.put? (.file content) (here ++ [name]) d.root = some root ∧ d' = { d with root } := by
  unfold write? at h
  obtain ⟨⟨here, name⟩, htarget, h⟩ := Option.bind_eq_some_iff.mp h
  dsimp only at h
  split at h
  · cases h
  · rename_i hnone
    obtain ⟨root, hroot, rfl⟩ := Option.map_eq_some_iff.mp h
    exact ⟨here, name, root, htarget, hnone, hroot, rfl⟩

theorem write?_of_writable (h : d.Writable s) (content : ByteArray) :
    ∃ d', d.write? s content = some d' := by
  obtain ⟨here, name, htarget, hnone⟩ := h
  obtain ⟨es, hdirectory⟩ := (leadsTo_of_target? htarget).directory
  obtain ⟨root, hroot⟩ := Node.exists_put? (.file content) name hdirectory
  refine ⟨{ d with root }, ?_⟩
  rw [write?, htarget, Option.bind_eq_bind, Option.bind_some]
  dsimp only
  split
  · rename_i hfound
    exact absurd hfound (hnone _)
  · rw [put?, hroot]
    rfl

/-! ### Reading what was written -/

variable {root : Node} {target : List String}

/-- A step that could be made can be made after a file was written. -/
theorem step_of_put? (hput : Node.put? (.file content) target d.root = some root)
    (htarget : ∀ es, d.root.find? target ≠ some (.directory es))
    (h : d.step here name = .ok there) : step { d with root } here name = .ok there := by
  unfold step at h ⊢
  split at h
  · rename_i es hes
    obtain ⟨es', hes', hnames⟩ := Node.exists_directory_of_put? hput htarget hes
    rw [hes']
    dsimp only
    split_ifs at h ⊢
    · exact h
    · exact h
    · exact h
    · exact absurd (hnames name ‹_›) ‹_›
  · cases h

theorem foldlM_step_of_put? (hput : Node.put? (.file content) target d.root = some root)
    (htarget : ∀ es, d.root.find? target ≠ some (.directory es)) {names : List String}
    (h : names.foldlM d.step here = .ok there) :
    names.foldlM (step { d with root }) here = .ok there := by
  induction names generalizing here with
  | nil => exact h
  | cons name names ih =>
    rw [List.foldlM_cons] at h ⊢
    cases hstep : d.step here name with
    | error e =>
      rw [hstep] at h
      cases h
    | ok next =>
      rw [hstep] at h
      rw [step_of_put? hput htarget hstep]
      exact ih h

namespace LeadsTo

theorem of_put? (h : d.LeadsTo s here name)
    (hput : Node.put? (.file content) target d.root = some root)
    (htarget : ∀ es, d.root.find? target ≠ some (.directory es)) :
    LeadsTo { d with root } s here name := by
  obtain ⟨es, hes⟩ := h.directory
  obtain ⟨es', hes', -⟩ := Node.exists_directory_of_put? hput htarget hes
  obtain ⟨names, hnames, hfold⟩ := h.way
  exact { h with
    directory := ⟨es', hes'⟩
    way := ⟨names, hnames, foldlM_step_of_put? hput htarget hfold⟩ }

/-- The text of a path leads to the entry of its name, once there is one. -/
theorem locate_eq {node : Node} (h : d.LeadsTo s here name)
    (hnode : d.root.find? (here ++ [name]) = some node) : d.locate s = .ok (here ++ [name]) := by
  obtain ⟨es, hes⟩ := h.directory
  obtain ⟨names, hnames, hfold⟩ := h.way
  have hstep : d.step here name = .ok (here ++ [name]) := by
    rw [Node.find?_concat name hes] at hnode
    unfold step
    rw [hes]
    dsimp only
    rw [if_neg (not_or.mpr ⟨h.notEmpty, h.notDot⟩), if_neg h.notDots,
      if_neg (Nat.not_lt.mpr h.nameFits), hnode]
    rfl
  have hs : s ≠ "" := by
    rintro rfl
    have hparts : (Path.split "").map String.ofList = [] ++ [""] := rfl
    have hlast := (List.append_inj' (hnames.symm.trans hparts) rfl).2
    exact h.notEmpty (List.singleton_inj.mp hlast)
  unfold locate
  rw [h.noZero, if_neg Bool.false_ne_true, if_neg hs, if_neg (Nat.not_lt.mpr h.fits), hnames,
    List.foldlM_append, hfold]
  show d.step here name >>= _ = _
  rw [hstep]
  rfl

end LeadsTo

/-- A file that was written holds what was written. -/
theorem read_of_write? (h : d.write? s content = some d') :
    d'.isPresent s = true ∧ d'.read s = .ok content := by
  obtain ⟨here, name, root, htarget, hnone, hput, rfl⟩ := write?_eq_some h
  have hfound := Node.find?_put? hput
  have hlocate := ((leadsTo_of_target? htarget).of_put? hput hnone).locate_eq hfound
  constructor
  · rw [isPresent, hlocate]
  · rw [read, hlocate]
    show Except.bind (.ok (here ++ [name])) _ = _
    rw [Except.bind]
    dsimp only
    rw [hfound]

theorem fromUTF8?_toUTF8 (text : String) : String.fromUTF8? text.toUTF8 = some text :=
  dif_pos text.isValidUTF8

/-- A text that was written is what is read. -/
theorem readText_of_write? {text : String} (h : d.write? s text.toUTF8 = some d') :
    d'.isPresent s = true ∧ d'.readText s = .ok text := by
  obtain ⟨hpresent, hread⟩ := read_of_write? h
  refine ⟨hpresent, ?_⟩
  rw [readText, hread]
  show Except.bind (.ok text.toUTF8) _ = _
  rw [Except.bind, fromUTF8?_toUTF8]

end Disk

end CodeAtlas
