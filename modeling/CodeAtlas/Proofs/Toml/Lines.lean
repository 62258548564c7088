import CodeAtlas.Config
import CodeAtlas.Proofs.Toml.Scalar
import CodeAtlas.Proofs.Toml.Text

/-!
# TOML lines are read back

A line that gives a value to a bare key, and one that opens a table, are read as what they say, and
reading goes on behind them.

* `Stands`        a text that is read as a value, up to the end of its line;
* `stands_list`   so is a list of strings, however many lines it takes;
* `lines_entry`, `lines_header`   one step of reading a document.
-/

namespace CodeAtlas.Toml.Reader

open CodeAtlas.Toml.Text (isSpace EndsQuotes)

variable {cs rest : List Char} {c : Char} {fuel depth : Nat}

/-! ### Strings and lists -/

theorem exists_write_cons (s : String) :
    ∃ q tail, Text.write s = q :: tail ∧ (q = '"' ∨ q = '\'') := by
  dsimp only [Text.write]
  cases Text.kindFor (Text.Traits.of s.toList) with
  | basic => exact ⟨'"', _, rfl, .inl rfl⟩
  | literal => exact ⟨'\'', _, rfl, .inr rfl⟩
  | multiBasic => exact ⟨'"', _, rfl, .inl rfl⟩
  | multiLiteral => exact ⟨'\'', _, rfl, .inr rfl⟩

theorem value_write (hrest : EndsQuotes rest) (fuel depth : Nat) (s : String) :
    value (fuel + 1) depth (Text.write s ++ rest) = some (.string s, rest) := by
  have hread := Text.read_write hrest s
  obtain ⟨q, tail, hwrite, rfl | rfl⟩ := exists_write_cons s <;>
  · rw [hwrite] at hread ⊢
    rw [List.cons_append] at hread ⊢
    rw [value, hread]
    rfl

theorem skipBlank_write (s : String) (rest : List Char) :
    skipBlank false (Text.write s ++ rest) = Text.write s ++ rest := by
  obtain ⟨q, tail, hwrite, rfl | rfl⟩ := exists_write_cons s <;>
  · rw [hwrite]
    rfl

theorem write_append_ne (s : String) (rest r : List Char) : Text.write s ++ rest ≠ ']' :: r := by
  intro heq
  obtain ⟨q, tail, hwrite, rfl | rfl⟩ := exists_write_cons s <;>
  · rw [hwrite] at heq
    exact absurd (List.cons.inj heq).1 (by decide)

theorem endsQuotes_cons (h : c ≠ '"' ∧ c ≠ '\'') (rest : List Char) : EndsQuotes (c :: rest) :=
  ⟨fun heq => h.1 (Option.some.inj heq), fun heq => h.2 (Option.some.inj heq)⟩

theorem items_comma (fuel depth : Nat) (s : String) (rest : List Char) :
    items (fuel + 2) depth (Text.write s ++ ',' :: rest) =
      (items (fuel + 1) depth (skipBlank false rest)).map fun (vs, rest) =>
        (.string s :: vs, rest) := by
  rw [items.eq_3 _ _ _ (write_append_ne s _), value_write (endsQuotes_cons (by decide) rest)]
  rfl

theorem items_close (fuel depth : Nat) (s : String) (rest : List Char) :
    items (fuel + 2) depth (Text.write s ++ ']' :: rest) = some ([.string s], rest) := by
  rw [items.eq_3 _ _ _ (write_append_ne s _), value_write (endsQuotes_cons (by decide) rest)]
  rfl

/-- A line of a list of several lines. -/
def itemLine (s : String) : List Char := "    ".toList ++ Text.write s ++ [',', '\n']

theorem items_lines (ss : List String) (hfuel : ss.length < fuel) (depth : Nat) (rest : List Char) :
    items fuel depth (skipBlank false (ss.flatMap itemLine ++ ']' :: rest)) =
      some (ss.map .string, rest) := by
  induction ss generalizing fuel with
  | nil =>
    obtain ⟨fuel, rfl⟩ := Nat.exists_eq_add_of_lt hfuel
    rfl
  | cons s ss ih =>
    have hline : skipBlank false ((s :: ss).flatMap itemLine ++ ']' :: rest) =
        Text.write s ++ ',' :: '\n' :: (ss.flatMap itemLine ++ ']' :: rest) := by
      rw [List.flatMap_cons, itemLine, List.append_assoc, List.append_assoc, List.append_assoc]
      exact skipBlank_write s _
    rw [List.length_cons] at hfuel
    obtain ⟨fuel, rfl⟩ : ∃ n, fuel = n + 2 := ⟨fuel - 2, by omega⟩
    have hless : ss.length < fuel + 1 := by omega
    rw [hline, items_comma]
    show (items (fuel + 1) depth (skipBlank false (ss.flatMap itemLine ++ ']' :: rest))).map _ = _
    rw [ih hless]
    rfl

theorem length_le_length_flatMap {α β : Type} {f : α → List β} (h : ∀ a, f a ≠ []) (as : List α) :
    as.length ≤ (as.flatMap f).length := by
  induction as with
  | nil => exact Nat.le_refl 0
  | cons a as ih =>
    rw [List.flatMap_cons, List.length_append, List.length_cons, Nat.add_comm]
    exact Nat.add_le_add (List.length_pos_iff.mpr (h a)) ih

/-! ### Values of keys -/

/-- a text that is read as a value, up to the end of its line -/
structure Stands (v : Value) (cs : List Char) : Prop where
  head : ∃ c tail, cs = c :: tail ∧ isSpace c = false
  value (fuel depth : Nat) (rest : List Char) (h : cs.length < fuel) :
    value fuel (depth + 1) (cs ++ '\n' :: rest) = some (v, '\n' :: rest)

theorem stands_string (s : String) : Stands (.string s) (Text.write s) where
  head := by
    obtain ⟨q, tail, hwrite, rfl | rfl⟩ := exists_write_cons s <;>
      exact ⟨_, tail, hwrite, by decide⟩
  value fuel depth rest h := by
    obtain ⟨fuel, rfl⟩ := Nat.exists_eq_add_of_lt h
    exact value_write (endsQuotes_cons (by decide) rest) _ _ s

theorem value_bracket (fuel depth : Nat) (rest : List Char) :
    value (fuel + 1) (depth + 1) ('[' :: rest) =
      (items fuel depth (skipBlank false rest)).map fun (vs, rest) => (.array vs, rest) := by
  rw [value]

theorem stands_list (ss : List String) :
    Stands (.array (ss.map .string)) (Config.tomlList ss) := by
  constructor
  case head =>
    match ss with
    | [] => exact ⟨'[', _, rfl, by decide⟩
    | [s] => exact ⟨'[', _, rfl, by decide⟩
    | s :: s' :: ss => exact ⟨'[', _, rfl, by decide⟩
  case value =>
    intro fuel depth rest h
    match ss with
    | [] =>
      obtain ⟨fuel, rfl⟩ : ∃ n, fuel = n + 2 := ⟨fuel - 2, by simp [Config.tomlList] at h; omega⟩
      rfl
    | [s] =>
      obtain ⟨fuel, rfl⟩ : ∃ n, fuel = n + 3 := ⟨fuel - 3, by simp [Config.tomlList] at h; omega⟩
      rw [Config.tomlList, List.cons_append, List.append_assoc, List.singleton_append,
        value_bracket, skipBlank_write, items_close]
      rfl
    | s :: s' :: ss =>
      generalize hitems : s :: s' :: ss = items at h ⊢
      have htext : Config.tomlList items = '[' :: '\n' :: (items.flatMap itemLine ++ [']']) := by
        rw [← hitems]
        rfl
      have hlength := length_le_length_flatMap (f := itemLine)
        (fun s => List.append_ne_nil_of_right_ne_nil _ (List.cons_ne_nil _ _)) items
      rw [htext, List.length_cons, List.length_cons, List.length_append] at h
      obtain ⟨fuel, rfl⟩ : ∃ n, fuel = n + 1 := ⟨fuel - 1, by omega⟩
      rw [htext, List.cons_append, List.cons_append, List.append_assoc, value_bracket]
      show (Reader.items fuel depth (skipBlank false (_ ++ ']' :: '\n' :: rest))).map _ = _
      rw [items_lines items (by omega)]
      rfl

theorem stands_scalar {v : Value} {d : Char} {ds : List Char} (hcs : cs = d :: ds)
    (hd : d.isAlphanum = true)
    (h : ∀ rest, Scalar.read (cs ++ '\n' :: rest) = some (v, '\n' :: rest)) : Stands v cs where
  head := by
    refine ⟨d, ds, hcs, ?_⟩
    rw [isSpace, Bool.or_eq_false_iff, beq_eq_false_iff_ne, beq_eq_false_iff_ne]
    constructor <;>
    · rintro rfl
      exact absurd hd (by decide)
  value fuel depth rest hfuel := by
    obtain ⟨fuel, rfl⟩ := Nat.exists_eq_add_of_lt hfuel
    have hne : ∀ {c : Char} {r : List Char}, c.isAlphanum = false →
        cs ++ '\n' :: rest ≠ c :: r := by
      rintro c r hc heq
      rw [hcs] at heq
      rw [(List.cons.inj heq).1, hc] at hd
      exact Bool.false_ne_true hd
    rw [value.eq_8 _ _ _ (fun _ => hne (by decide)) (fun _ => hne (by decide))
      (fun _ h => absurd h (hne (by decide))) (fun _ h => absurd h (hne (by decide)))
      (fun _ _ h => absurd h (hne (by decide))) (fun _ _ h => absurd h (hne (by decide))), h]

theorem stands_bool (b : Bool) : Stands (.bool b) (if b then "true" else "false").toList := by
  cases b with
  | false =>
    have htext : "false".toList = 'f' :: "alse".toList := rfl
    exact stands_scalar htext (by decide) (Scalar.read_bool false)
  | true =>
    have htext : "true".toList = 't' :: "rue".toList := rfl
    exact stands_scalar htext (by decide) (Scalar.read_bool true)

theorem stands_natural {n : Nat} (h : n ≤ Scalar.maxInteger) :
    Stands (.integer n) (toString n).toList := by
  have hread := Scalar.read_natural h
  have hdigits := Decimal.isDigits_digitChars n
  have htext : (toString n).toList = Decimal.digitChars n := by
    rw [Nat.toString_eq_repr, Nat.toList_repr]
    rfl
  rw [htext] at hread ⊢
  obtain ⟨d, ds, hcs⟩ := List.exists_cons_of_ne_nil hdigits.1
  have hd : d.isDigit = true := hdigits.2 d (hcs ▸ List.mem_cons_self)
  exact stands_scalar hcs (by rw [Char.isAlphanum, hd, Bool.or_true]) hread

/-! ### Keys -/

/-- a name that may stand as a key without quotes -/
def Bare (name : String) : Prop := name.toList ≠ [] ∧ ∀ c ∈ name.toList, isBare c = true

instance (name : String) : Decidable (Bare name) :=
  decidable_of_iff (name.toList ≠ [] ∧ name.toList.all isBare = true)
    (by rw [Bare, List.all_eq_true])

theorem ne_of_isBare {d : Char} (hc : isBare c = true) (hd : isBare d = false) : c ≠ d := by
  rintro rfl
  exact Bool.false_ne_true (hd.symm.trans hc)

theorem skipSpace_of_isBare (hc : isBare c = true) (cs : List Char) :
    skipSpace (c :: cs) = c :: cs := by
  refine List.dropWhile_cons_of_neg ?_
  rw [isSpace, beq_eq_false_iff_ne.mpr (ne_of_isBare hc (by decide)),
    beq_eq_false_iff_ne.mpr (ne_of_isBare hc (by decide))]
  exact Bool.false_ne_true

theorem exists_bare_cons {name : String} (h : Bare name) (rest : List Char) :
    ∃ c cs, name.toList ++ rest = c :: cs ∧ isBare c = true := by
  obtain ⟨c, cs, hname⟩ := List.exists_cons_of_ne_nil h.1
  exact ⟨c, cs ++ rest, by rw [hname]; rfl, h.2 c (hname ▸ List.mem_cons_self)⟩

theorem part_bare {name : String} (h : Bare name) (hc : isBare c = false) (cs : List Char) :
    part (name.toList ++ c :: cs) = some (name, c :: cs) := by
  obtain ⟨d, ds, heq, hd⟩ := exists_bare_cons h (c :: cs)
  have hc' : ¬ isBare c = true := Bool.not_eq_true _ ▸ hc
  have htake : (name.toList ++ c :: cs).takeWhile isBare = name.toList := by
    rw [List.takeWhile_append_of_pos h.2, List.takeWhile_cons_of_neg hc', List.append_nil]
  have hdrop : (name.toList ++ c :: cs).dropWhile isBare = c :: cs := by
    rw [List.dropWhile_append_of_pos h.2, List.dropWhile_cons_of_neg hc']
  have hquote : ∀ {q : Char} {r : List Char}, isBare q = false →
      name.toList ++ c :: cs ≠ q :: r := by
    rintro q r hq heq'
    exact ne_of_isBare hd hq (List.cons.inj (heq.symm.trans heq')).1
  rw [part.eq_3 _ (fun _ => hquote (by decide)) (fun _ => hquote (by decide)), htake, hdrop]
  split
  · rename_i hnil
    exact absurd hnil h.1
  · rw [String.ofList_toList]

/-- A bare key ends at the first character that none may have. -/
theorem key_bare {name : String} (h : Bare name) (hc : isBare c = false) {d : Char}
    {ds : List Char} (hskip : skipSpace (c :: cs) = d :: ds) (hdot : d ≠ '.') (most : Nat) :
    key (most + 1) (name.toList ++ c :: cs) = some ([name], d :: ds) := by
  obtain ⟨b, bs, heq, hb⟩ := exists_bare_cons h (c :: cs)
  have hname : skipSpace (name.toList ++ c :: cs) = name.toList ++ c :: cs := by
    rw [heq, skipSpace_of_isBare hb]
  rw [key, hname, part_bare h hc]
  dsimp only
  rw [hskip]
  split
  · rename_i hcase
    exact absurd (List.cons.inj hcase).1 hdot
  · rfl

/-! ### Lines -/

variable {d d' : Document} {name : String}

/-- A line that gives a value to a key. -/
theorem line_entry {v : Value} (hname : Bare name) (hcs : Stands v cs)
    (hassign : d.assign [name] v = some d') (rest : List Char) :
    line d (Config.tomlLine name cs ++ rest) = some (d', rest) := by
  have htext : Config.tomlLine name cs ++ rest =
      name.toList ++ ' ' :: '=' :: ' ' :: (cs ++ '\n' :: rest) := by
    rw [Config.tomlLine, List.append_assoc, List.append_assoc, List.append_assoc]
    rfl
  obtain ⟨c, tail, heq, hc⟩ :=
    exists_bare_cons hname (' ' :: '=' :: ' ' :: (cs ++ '\n' :: rest))
  have hbracket : ∀ {r : List Char},
      name.toList ++ ' ' :: '=' :: ' ' :: (cs ++ '\n' :: rest) ≠ '[' :: r := by
    intro r hr
    exact ne_of_isBare hc (by decide) (List.cons.inj (heq.symm.trans hr)).1
  have hkey : key maxDepth (name.toList ++ ' ' :: '=' :: ' ' :: (cs ++ '\n' :: rest)) =
      some ([name], '=' :: ' ' :: (cs ++ '\n' :: rest)) :=
    key_bare hname (by decide) rfl (by decide) 78
  have hskip : skipSpace (' ' :: (cs ++ '\n' :: rest)) = cs ++ '\n' :: rest := by
    obtain ⟨b, bs, rfl, hb⟩ := hcs.head
    exact List.dropWhile_cons_of_neg (Bool.not_eq_true _ ▸ hb)
  have hvalue : value ((' ' :: (cs ++ '\n' :: rest)).length + 1) maxDepth
      (skipSpace (' ' :: (cs ++ '\n' :: rest))) = some (v, '\n' :: rest) := by
    rw [hskip]
    refine hcs.value _ 78 rest ?_
    rw [List.length_cons, List.length_append]
    omega
  rw [htext, line.eq_3 _ _ (fun _ => hbracket) (fun _ => hbracket), hkey]
  show (value ((' ' :: (cs ++ '\n' :: rest)).length + 1) maxDepth
    (skipSpace (' ' :: (cs ++ '\n' :: rest)))).bind _ = _
  rw [hvalue]
  show (d.assign [name] v).bind _ = _
  rw [hassign]
  rfl

/-- A line that opens a table. -/
theorem line_header (hname : Bare name) (hopen : d.openTable [name] = some d') (rest : List Char) :
    line d ('[' :: (name.toList ++ ']' :: '\n' :: rest)) = some (d', rest) := by
  obtain ⟨c, tail, heq, hc⟩ := exists_bare_cons hname (']' :: '\n' :: rest)
  have hbracket : ∀ r, name.toList ++ ']' :: '\n' :: rest ≠ '[' :: r := by
    intro r hr
    exact ne_of_isBare hc (by decide) (List.cons.inj (heq.symm.trans hr)).1
  have hkey : key maxDepth (name.toList ++ ']' :: '\n' :: rest) =
      some ([name], ']' :: '\n' :: rest) :=
    key_bare hname (by decide) rfl (by decide) 78
  rw [line.eq_2 _ _ hbracket, hkey]
  show (d.openTable [name]).bind _ = _
  rw [hopen]
  rfl

/-- A line is one step of reading a document. -/
theorem lines_of_line (hc : isBare c = true ∨ c = '[')
    (h : line d (c :: cs) = some (d', rest)) (fuel : Nat) :
    lines (fuel + 1) d (c :: cs) = lines fuel d' rest := by
  have hne : ∀ {b : Char}, isBare b = false → b ≠ '[' → c ≠ b := by
    rintro b hb hbracket rfl
    exact hc.elim (fun hc => Bool.false_ne_true (hb.symm.trans hc)) hbracket
  have hskip : skipSpace (c :: cs) = c :: cs := by
    rcases hc with hc | rfl
    · exact skipSpace_of_isBare hc cs
    · rfl
  rw [lines.eq_2, hskip]
  split
  · rename_i heq
    cases heq
  · rename_i heq
    exact absurd (List.cons.inj heq).1 (hne (by decide) (by decide))
  · rename_i heq
    exact absurd (List.cons.inj heq).1 (hne (by decide) (by decide))
  · rename_i heq
    exact absurd (List.cons.inj heq).1 (hne (by decide) (by decide))
  · rw [h]

theorem lines_entry {v : Value} (hname : Bare name) (hcs : Stands v cs)
    (hassign : d.assign [name] v = some d') (fuel : Nat) (rest : List Char) :
    lines (fuel + 1) d (Config.tomlLine name cs ++ rest) = lines fuel d' rest := by
  have hline := line_entry hname hcs hassign rest
  obtain ⟨c, tail, heq, hc⟩ : ∃ c tail, Config.tomlLine name cs ++ rest = c :: tail ∧
      isBare c = true := by
    rw [Config.tomlLine, List.append_assoc, List.append_assoc, List.append_assoc]
    exact exists_bare_cons hname _
  rw [heq] at hline ⊢
  exact lines_of_line (.inl hc) hline fuel

theorem lines_header (hname : Bare name) (hopen : d.openTable [name] = some d') (fuel : Nat)
    (rest : List Char) :
    lines (fuel + 1) d ('[' :: (name.toList ++ ']' :: '\n' :: rest)) = lines fuel d' rest :=
  lines_of_line (.inr rfl) (line_header hname hopen rest) fuel

/-! ### Tables -/

variable {pre : Entries} {t : String}

theorem lookup_of_forall_ne (h : ∀ e ∈ pre, e.1 ≠ t) : pre.lookup t = none :=
  List.lookup_eq_none_iff.mpr fun e he => bne_iff_ne.mpr (h e he).symm

theorem lookup_concat (h : ∀ e ∈ pre, e.1 ≠ t) (v : Value) :
    (pre ++ [(t, v)]).lookup t = some v := by
  rw [List.lookup_append, lookup_of_forall_ne h, List.lookup_cons_self]
  rfl

theorem put_of_forall_ne (h : ∀ e ∈ pre, e.1 ≠ t) (v : Value) (rest : Entries) :
    Entries.put t v (pre ++ rest) = pre ++ Entries.put t v rest := by
  induction pre with
  | nil => rfl
  | cons e pre ih =>
    obtain ⟨he, hpre⟩ := List.forall_mem_cons.mp h
    rw [List.cons_append, Entries.put, if_neg he, ih hpre]
    rfl

theorem openTable_new (h : ∀ e ∈ pre, e.1 ≠ t) (current : List String) :
    Document.openTable [t] ⟨pre, current⟩ = some ⟨pre ++ [(t, .table .header [])], [t]⟩ := by
  have hput := put_of_forall_ne h (.table .header []) []
  rw [List.append_nil] at hput
  rw [Document.openTable, Entries.alter, lookup_of_forall_ne h]
  show some (Document.mk (pre.put t (.table .header [])) [t]) = _
  rw [hput]
  rfl

theorem assign_new {before : Entries} {k : String} (h : ∀ e ∈ pre, e.1 ≠ t)
    (hkey : ∀ e ∈ before, e.1 ≠ k) (v : Value) :
    Document.assign [k] v ⟨pre ++ [(t, .table .header before)], [t]⟩ =
      some ⟨pre ++ [(t, .table .header (before ++ [(k, v)]))], [t]⟩ := by
  have hput := put_of_forall_ne hkey v []
  rw [List.append_nil] at hput
  have hassign : Entries.assign v [k] before = some (before ++ [(k, v)]) := by
    rw [Entries.assign, lookup_of_forall_ne hkey, hput]
    rfl
  dsimp only [Document.assign]
  rw [Entries.alter, lookup_concat h]
  dsimp only
  rw [hassign, Option.map_some, Option.map_some, put_of_forall_ne h, Entries.put, if_pos rfl]
  rfl

/-- a line of a table: its key, and the value that its text stands for -/
structure Line where
  key : String
  value : Value
  text : List Char

structure Line.Reads (l : Line) : Prop where
  key : Bare l.key
  text : Stands l.value l.text

theorem Line.Reads.of_bare {key : String} {value : Value} {text : List Char} (hkey : Bare key)
    (htext : Stands value text) : Line.Reads ⟨key, value, text⟩ := ⟨hkey, htext⟩

def Line.entry (l : Line) : String × Value := (l.key, l.value)

def Line.chars (l : Line) : List Char := Config.tomlLine l.key l.text

/-- The table that was opened last takes one line after another. -/
theorem lines_entries {ls : List Line} (hread : ∀ l ∈ ls, l.Reads) (hnew : ∀ e ∈ pre, e.1 ≠ t)
    {before : Entries} (hkeys : (before.map Prod.fst ++ ls.map Line.key).Nodup)
    (fuel : Nat) (rest : List Char) :
    lines (fuel + ls.length) ⟨pre ++ [(t, .table .header before)], [t]⟩
      (ls.flatMap Line.chars ++ rest) =
    lines fuel ⟨pre ++ [(t, .table .header (before ++ ls.map Line.entry))], [t]⟩ rest := by
  induction ls generalizing before with
  | nil =>
    rw [List.map_nil, List.append_nil]
    rfl
  | cons l ls ih =>
    obtain ⟨hl, hls⟩ := List.forall_mem_cons.mp hread
    have hkey : ∀ e ∈ before, e.1 ≠ l.key := fun e he =>
      (List.nodup_append.mp hkeys).2.2 e.1 (List.mem_map_of_mem he) l.key List.mem_cons_self
    have hconcat : before ++ (l :: ls).map Line.entry =
        (before ++ [(l.key, l.value)]) ++ ls.map Line.entry := by
      rw [List.append_assoc]
      rfl
    have hkeys : ((before ++ [(l.key, l.value)]).map Prod.fst ++ ls.map Line.key).Nodup := by
      rw [List.map_append, List.append_assoc]
      exact hkeys
    rw [hconcat, List.flatMap_cons, List.append_assoc, List.length_cons, ← Nat.add_assoc,
      Line.chars, lines_entry hl.key hl.text (assign_new hnew hkey l.value)]
    exact ih hls hkeys

/-- The lines of a table are read as the table of their values. -/
theorem lines_table {ls : List Line} (hread : ∀ l ∈ ls, l.Reads)
    (hkeys : (ls.map Line.key).Nodup) (ht : Bare t)
    (hnew : ∀ e ∈ pre, e.1 ≠ t) (current : List String) (fuel : Nat) (rest : List Char) :
    lines (fuel + ls.length + 1) ⟨pre, current⟩
      ('[' :: (t.toList ++ ']' :: '\n' :: (ls.flatMap Line.chars ++ rest))) =
    lines fuel ⟨pre ++ [(t, .table .header (ls.map Line.entry))], [t]⟩ rest := by
  rw [lines_header ht (openTable_new hnew current)]
  have hkeys : (([] : Entries).map Prod.fst ++ ls.map Line.key).Nodup := hkeys
  exact lines_entries hread hnew hkeys fuel rest

theorem lines_blank (d : Document) (fuel : Nat) (rest : List Char) :
    lines (fuel + 1) d ('\n' :: rest) = lines fuel d rest := rfl

theorem lines_nil (d : Document) (fuel : Nat) : lines fuel d [] = some d := by
  cases fuel <;> rfl

end CodeAtlas.Toml.Reader
