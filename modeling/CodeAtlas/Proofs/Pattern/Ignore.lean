import CodeAtlas.Pattern.Ignore
import CodeAtlas.Proofs.Text.Bytes
import Mathlib.Data.List.Induction

/-!
# What ignore rules say

The last rule that matches decides, so rules that come last and keep nothing cannot be overruled by
the ones before them. A rule that is a plain name in front of a slash matches every directory of that
name, however deep it lies.

* `Rule.Matches`, `Rule.Covers`   what a rule matches, and what lies at or below that;
* `verdict_eq_ignore`             a later rule that keeps nothing has the last word;
* `keeps_of_line`                 only a line in `!` keeps what it matches;
* `covers_of_name`                the rule of a directory's name covers what lies below one.
-/

namespace CodeAtlas

namespace Glob

theorem bytesOf_append (s t : String) : bytesOf (s ++ t) = bytesOf s ++ bytesOf t :=
  utf8Bytes_append s t

theorem bytesOf_slash : bytesOf "/" = [slash] := by
  unfold bytesOf
  rw [byteArray_toList_eq]
  rfl

theorem bytesOf_empty : bytesOf "" = [] := by
  unfold bytesOf
  rw [byteArray_toList_eq]
  rfl

/-! ### Globs that are names -/

/-- the tokens of a text in which every character stands for itself -/
def literals (cs : List Char) : List Token := cs.map .literal

theorem mem_endsAfterSlash (before after : Bytes) :
    after ∈ endsAfterSlash (before ++ slash :: after) := by
  induction before with
  | nil =>
    rw [List.nil_append, endsAfterSlash, if_pos (beq_self_eq_true _)]
    exact List.mem_cons_self
  | cons b before ih =>
    rw [List.cons_append, endsAfterSlash]
    split
    · exact List.mem_cons_of_mem _ ih
    · exact ih

theorem suffix_of_mem_endsAfterSlash {path rest : Bytes} (h : rest ∈ endsAfterSlash path) :
    rest <:+ path := by
  induction path with
  | nil => cases h
  | cons b path ih =>
    rw [endsAfterSlash] at h
    split at h
    · rcases List.mem_cons.mp h with rfl | h
      · exact List.suffix_cons b rest
      · exact (ih h).trans (List.suffix_cons b path)
    · exact (ih h).trans (List.suffix_cons b path)

theorem once_concat (paths : List Bytes) (p : Bytes) :
    once (paths ++ [p]) =
      if (once paths).any (·.length == p.length) then once paths else once paths ++ [p] := by
  unfold once
  rw [List.foldl_append]
  rfl

theorem once_subset (paths : List Bytes) : once paths ⊆ paths := by
  induction paths using List.reverseRecOn with
  | nil => exact List.Subset.refl []
  | append_singleton paths p ih =>
    rw [once_concat]
    split
    · exact List.subset_append_of_subset_left _ ih
    · exact List.append_subset.mpr
        ⟨List.subset_append_of_subset_left _ ih, List.subset_append_right paths [p]⟩

/-- Of several ends of one path none is lost. -/
theorem mem_once {whole rest : Bytes} {paths : List Bytes} (hends : ∀ p ∈ paths, p <:+ whole)
    (h : rest ∈ paths) : rest ∈ once paths := by
  induction paths using List.reverseRecOn with
  | nil => cases h
  | append_singleton paths p ih =>
    have hpaths : ∀ q ∈ paths, q <:+ whole := fun q hq => hends q (List.mem_append_left _ hq)
    rw [once_concat]
    rcases List.mem_append.mp h with h | h
    · split
      · exact ih hpaths h
      · exact List.mem_append_left _ (ih hpaths h)
    · rw [List.mem_singleton.mp h]
      split
      · -- an end of the same length is kept already, and ends of the same length are the same
        rename_i hany
        obtain ⟨q, hq, hlength⟩ := List.any_eq_true.mp hany
        have hlength : q.length = p.length := beq_iff_eq.mp hlength
        have hq' := hpaths q (once_subset paths hq)
        have hp' := hends p (List.mem_append_right _ (List.mem_singleton_self p))
        have hsame : q = p :=
          (List.suffix_of_suffix_length_le hq' hp' (Nat.le_of_eq hlength)).eq_of_length hlength
        exact hsame ▸ hq
      · exact List.mem_append_right _ (List.mem_singleton_self p)

/-- Literals take their own bytes off a path. -/
theorem mem_afterAll_literals {cs : List Char} {paths : List Bytes} {rest : Bytes}
    (h : bytesOf (String.ofList cs) ++ rest ∈ paths) : rest ∈ afterAll paths (literals cs) := by
  induction cs generalizing paths with
  | nil =>
    rw [String.ofList_nil, bytesOf_empty, List.nil_append] at h
    exact h
  | cons c cs ih =>
    rw [String.ofList_cons, bytesOf_append, List.append_assoc] at h
    rw [literals, List.map_cons, afterAll]
    refine ih ?_
    rw [Token.after]
    refine List.mem_filterMap.mpr ⟨_, h, ?_⟩
    have hpre : (bytesOf c.toString).isPrefixOf (bytesOf (String.singleton c) ++
        (bytesOf (String.ofList cs) ++ rest)) = true :=
      List.isPrefixOf_iff_prefix.mpr (List.prefix_append _ _)
    rw [if_pos hpre]
    exact congrArg some (List.drop_left' rfl)

/-- `**/` before a name matches the name wherever a component begins. -/
theorem matches_leading_literals {name : String} (hname : name ≠ "")
    (hdot : name.toList.getLast? ≠ some '.') {path before : Bytes}
    (hpath : path = bytesOf name ∨ path = before ++ slash :: bytesOf name) :
    Glob.matches (.leading :: literals name.toList) path = true := by
  have hends : ∀ p ∈ [path].flatMap fun p => p :: endsAfterSlash p, p <:+ path := by
    intro p hp
    rw [List.flatMap_singleton] at hp
    rcases List.mem_cons.mp hp with rfl | hp
    · exact List.suffix_refl p
    · exact suffix_of_mem_endsAfterSlash hp
  have hstart : bytesOf name ∈ [path].flatMap fun p => p :: endsAfterSlash p := by
    rw [List.flatMap_singleton]
    rcases hpath with rfl | rfl
    · exact List.mem_cons_self
    · exact List.mem_cons_of_mem _ (mem_endsAfterSlash before _)
  have hnil : [] ∈ afterAll [path] (.leading :: literals name.toList) := by
    rw [afterAll, Token.after]
    refine mem_afterAll_literals ?_
    rw [String.ofList_toList, List.append_nil]
    exact mem_once hends hstart
  obtain ⟨c, cs, hcs⟩ := List.exists_cons_of_ne_nil (mt String.toList_eq_nil_iff.mp hname)
  have hnever : neverMatches (.leading :: literals name.toList) = false := by
    have hlast : (Token.leading :: literals name.toList).getLast? =
        name.toList.getLast?.map Token.literal := by
      rw [literals, hcs, List.map_cons, List.getLast?_cons_cons, ← List.map_cons,
        List.getLast?_map]
    unfold neverMatches
    rw [hlast]
    revert hdot
    cases name.toList.getLast? with
    | none => exact fun _ => rfl
    | some last =>
      intro hdot
      have hne : ('.' == last) = false := beq_eq_false_iff_ne.mpr fun h => hdot (h ▸ rfl)
      show (('.' == last) && _) = false
      rw [hne, Bool.false_and]
  rw [hcs] at hnil hnever ⊢
  show (!neverMatches _ && (afterAll [path] _).any List.isEmpty) = true
  rw [hnever, Bool.not_false, Bool.true_and]
  exact List.any_eq_true.mpr ⟨[], hnil, rfl⟩

end Glob

namespace Ignore

/-! ### The last match decides -/

variable {r : Rule} {rules : List Rule} {isDirectory : Bool}

/-- A rule matches what stands at some components below the directory of the rules. A rule that is
about directories matches directories only. -/
def Rule.Matches (r : Rule) (components : List String) (isDirectory : Bool) : Prop :=
  (r.onlyDirectories = true → isDirectory = true) ∧
    Glob.matches r.glob (pathOf components) = true

/-- a rule matches what stands at some components, or a directory on the way to it -/
def Rule.Covers (r : Rule) (below : List String) : Prop :=
  ∃ taken left, below = taken ++ left ∧ taken ≠ [] ∧ r.Matches taken (!left.isEmpty)

theorem Rule.verdict_of_matches {components : List String} (h : r.Matches components isDirectory)
    (hkeeps : r.keeps = false) : r.verdict (pathOf components) isDirectory = .ignore := by
  obtain ⟨hdirectory, hglob⟩ := h
  have hkind : (!r.onlyDirectories || isDirectory) = true := by
    cases honly : r.onlyDirectories with
    | false => rfl
    | true => exact hdirectory honly
  rw [verdict, hkind, hglob, Bool.true_and, if_pos rfl, hkeeps, if_neg Bool.false_ne_true]

theorem Rule.verdict_eq_of_not_keeps (hkeeps : r.keeps = false) (path : Glob.Bytes)
    (isDirectory : Bool) :
    r.verdict path isDirectory = .ignore ∨ r.verdict path isDirectory = .none := by
  rw [verdict, hkeeps, if_neg Bool.false_ne_true]
  split
  · exact .inl rfl
  · exact .inr rfl

theorem verdict_concat (rules : List Rule) (r : Rule) (path : Glob.Bytes) (isDirectory : Bool) :
    verdict (rules ++ [r]) path isDirectory =
      (r.verdict path isDirectory).orElse (verdict rules path isDirectory) := by
  unfold verdict
  rw [List.foldl_append]
  rfl

/-- Later rules that keep nothing have the last word about what one of them matches. -/
theorem verdict_eq_ignore {later : List Rule} (hkeeps : ∀ r ∈ later, r.keeps = false)
    {components : List String} (hmatches : ∃ r ∈ later, r.Matches components isDirectory) :
    verdict (rules ++ later) (pathOf components) isDirectory = .ignore := by
  induction later using List.reverseRecOn with
  | nil =>
    obtain ⟨r, hr, -⟩ := hmatches
    cases hr
  | append_singleton later last ih =>
    have hlast := hkeeps last (List.mem_append_right _ (List.mem_singleton_self last))
    rw [← List.append_assoc, verdict_concat]
    rcases Rule.verdict_eq_of_not_keeps hlast (pathOf components) isDirectory with
      hverdict | hverdict
    · rw [hverdict]
      rfl
    · -- then the one that matches is an earlier one
      rw [hverdict]
      refine ih (fun r hr => hkeeps r (List.mem_append_left _ hr)) ?_
      obtain ⟨r, hr, hmatch⟩ := hmatches
      rcases List.mem_append.mp hr with hr | hr
      · exact ⟨r, hr, hmatch⟩
      · rw [List.mem_singleton.mp hr] at hmatch
        rw [Rule.verdict_of_matches hmatch hlast] at hverdict
        cases hverdict

/-! ### Lines -/

theorem startsWith_bang {cs : List Char} : startsWith "!" cs = true ↔ cs.head? = some '!' := by
  cases cs with
  | nil => decide
  | cons c cs =>
    show (('!' == c) && true) = true ↔ some c = some '!'
    rw [Bool.and_true, beq_iff_eq, Option.some_inj, eq_comm]

theorem head?_trimEndChars {cs : List Char} (h : (Text.trimEndChars cs).head? = some '!') :
    cs.head? = some '!' := by
  have hpre : Text.trimEndChars cs <+: cs := by
    have hsuffix : cs.reverse.dropWhile Text.isBlank <:+ cs.reverse := List.dropWhile_suffix _
    have hreverse := List.reverse_prefix.mpr hsuffix
    rwa [List.reverse_reverse] at hreverse
  obtain ⟨rest, hrest⟩ := hpre
  rw [← hrest, List.head?_append, h]
  rfl

theorem markers_keeps {line : List Char} (h : line.head? ≠ some '!') :
    (markers line).1 = false := by
  have hbang : startsWith "!" line = false := by
    rw [← Bool.not_eq_true]
    exact mt startsWith_bang.mp h
  unfold markers
  by_cases hescaped : (startsWith "\\!" line || startsWith "\\#" line) = true
  · rw [if_pos hescaped]
  · rw [if_neg hescaped]
    exact hbang

/-- The sign of a rule is that of its line, blanks at the end aside. -/
theorem keeps_of_ofLine? {line : List Char} (h : Rule.ofLine? line = some r) :
    ∃ trimmed, (trimmed = line ∨ trimmed = Text.trimEndChars line) ∧
      r.keeps = (markers trimmed).1 := by
  unfold Rule.ofLine? at h
  by_cases hcomment : startsWith "#" line = true
  · rw [if_pos hcomment] at h
    cases h
  · rw [if_neg hcomment] at h
    dsimp only at h
    generalize htrimmed :
      (if endsWith "\\ " line then line else Text.trimEndChars line) = trimmed at h
    by_cases hempty : trimmed.isEmpty = true
    · rw [if_pos hempty] at h
      cases h
    · rw [if_neg hempty] at h
      obtain ⟨glob, -, rfl⟩ := Option.map_eq_some_iff.mp h
      refine ⟨trimmed, ?_, rfl⟩
      rw [← htrimmed]
      split
      · exact .inl rfl
      · exact .inr rfl

/-- Only a line in `!` gives a rule that keeps what it matches. -/
theorem keeps_of_line {line : String} (hline : line.toList.head? ≠ some '!')
    (h : Rule.ofString? line = some r) : r.keeps = false := by
  obtain ⟨trimmed, htrimmed, hkeeps⟩ := keeps_of_ofLine? h
  rw [hkeeps]
  refine markers_keeps ?_
  rcases htrimmed with rfl | rfl
  · exact hline
  · exact mt head?_trimEndChars hline

/-! ### Names of directories -/

theorem pathOf_concat (above : List String) (name : String) :
    pathOf (above ++ [name]) = Glob.bytesOf name ∨
      pathOf (above ++ [name]) = pathOf above ++ Glob.slash :: Glob.bytesOf name := by
  unfold pathOf
  cases above with
  | nil => exact .inl (congrArg Glob.bytesOf String.intercalate_singleton)
  | cons first rest =>
    right
    have htext : ∀ (first : String), "/".intercalate (first :: rest ++ [name]) =
        "/".intercalate (first :: rest) ++ "/" ++ name := by
      induction rest with
      | nil =>
        intro first
        rw [String.intercalate_singleton]
        exact String.intercalate_cons_cons.trans (by rw [String.intercalate_singleton])
      | cons second rest ih =>
        intro first
        rw [List.cons_append, List.cons_append, String.intercalate_cons_cons, ← List.cons_append,
          ih second, String.intercalate_cons_cons, String.append_assoc, String.append_assoc,
          String.append_assoc, String.append_assoc, String.append_assoc]
    rw [htext, Glob.bytesOf_append, Glob.bytesOf_append, Glob.bytesOf_slash, List.append_assoc]
    rfl

/-- A rule that is a name in front of a slash covers all that lies below a directory of that name. -/
theorem covers_of_name {name : String} (hname : name ≠ "")
    (hdot : name.toList.getLast? ≠ some '.')
    (hglob : r.glob = .leading :: Glob.literals name.toList) {below : List String}
    (hmem : name ∈ below.dropLast) : r.Covers below := by
  obtain ⟨above, rest, hsplit⟩ := List.append_of_mem hmem
  have hne : below ≠ [] := by
    rintro rfl
    cases hmem
  have hbelow : below = (above ++ [name]) ++ (rest ++ [below.getLast hne]) := by
    rw [← List.append_assoc, List.append_assoc above, List.singleton_append, ← hsplit,
      List.dropLast_concat_getLast hne]
  refine ⟨above ++ [name], rest ++ [below.getLast hne], hbelow, by simp, fun _ => by simp, ?_⟩
  rw [hglob]
  exact Glob.matches_leading_literals hname hdot (pathOf_concat above name)

end Ignore

end CodeAtlas
