import CodeAtlas.Toml.Text
import Mathlib.Data.List.Infix
import Mathlib.Tactic.SplitIfs

/-!
# TOML strings are read back

The literal of a text, in whichever of the four kinds it is written, is read as the text, up to
what follows its closing quotes. The kind is chosen by the content: what stands as it is between the
quotes must not be taken for an escape, for a control character or for the closing quotes.

* `Spelled`            the ways in which a character stands in a basic string;
* `basic_writeBasic`, `literal_append`, `multiBasic_writeMultiBasic`, `multiLiteral_append`
                       each kind, from behind its opening quotes on;
* `read_write`         a literal is read as its text.
-/

namespace CodeAtlas.Toml.Text

variable {c : Char} {cs rest spelling : List Char} {done : Reversed}

/-- what does not go on with a quote -/
def EndsQuotes (rest : List Char) : Prop := rest.head? ≠ some '"' ∧ rest.head? ≠ some '\''

/-! ### Characters of basic strings -/

/-- the ways in which a character stands in a basic string -/
inductive Spelled (c : Char) : List Char → Prop
  | plain (hplain : isPlain c = true) (hquote : c ≠ '"') (hslash : c ≠ '\\') : Spelled c [c]
  | letter {l : Char} (h : escaped l = some c) : Spelled c ['\\', l]
  | number {a b d e : Char} (h : scalar? [a, b, d, e] = some c) :
    Spelled c ['\\', 'u', a, b, d, e]

/-- A control character is written by its number. -/
theorem scalar?_control : ∀ n < 128, n < 0x20 ∨ n = 0x7F →
    scalar? (['0', '0'] ++ (CodeAtlas.Text.hexPair n).map Char.toUpper) = some (Char.ofNat n) := by
  decide +kernel

theorem isPlain_of_not_control (h : ¬ (decide (c.toNat < 0x20) || c.toNat == 0x7F) = true) :
    isPlain c = true := by
  rw [Bool.or_eq_true, decide_eq_true_iff, beq_iff_eq, not_or] at h
  rw [isPlain, Bool.or_eq_true, Bool.and_eq_true, decide_eq_true_iff, bne_iff_ne]
  exact .inr ⟨Nat.not_lt.mp h.1, h.2⟩

theorem spelled_escape (hquote : c ≠ '"') : Spelled c (escape c) := by
  unfold escape
  split
  case h_6 =>
    rename_i hslash
    split
    · rename_i hcontrol
      rw [Bool.or_eq_true, decide_eq_true_iff, beq_iff_eq] at hcontrol
      have hscalar := scalar?_control c.toNat (by omega) hcontrol
      rw [Char.ofNat_toNat] at hscalar
      exact .number hscalar
    · rename_i hcontrol
      exact .plain (isPlain_of_not_control hcontrol) hquote hslash
  all_goals exact .letter rfl

/-- However a character stands in a string, it does not close it. -/
theorem exists_cons_of_spelled (h : Spelled c spelling) :
    ∃ d ds, spelling = d :: ds ∧ isPlain d = true ∧ d ≠ '"' := by
  cases h with
  | plain hplain hquote hslash => exact ⟨c, [], rfl, hplain, hquote⟩
  | letter h => exact ⟨'\\', _, rfl, by decide, by decide⟩
  | number h => exact ⟨'\\', _, rfl, by decide, by decide⟩

/-- The letter of an escape is none of those that announce a number. -/
theorem ne_of_escaped {l : Char} (h : escaped l = some c) : l ≠ 'u' ∧ l ≠ 'U' := by
  constructor <;> rintro rfl <;> cases h

theorem basic_spelled (h : Spelled c spelling) (done : Reversed) (rest : List Char) :
    basic done (spelling ++ rest) = basic (c :: done) rest := by
  cases h with
  | plain hplain hquote hslash =>
    show basic done (c :: rest) = _
    rw [basic.eq_5 _ _ _ hquote (fun _ _ _ _ _ h => absurd h hslash)
      (fun _ _ _ _ _ _ _ _ _ h => absurd h hslash) (fun _ _ h => absurd h hslash), hplain,
      bne_iff_ne.mpr hslash]
    rfl
  | letter h =>
    obtain ⟨hu, hU⟩ := ne_of_escaped h
    show basic done ('\\' :: _ :: rest) = _
    rw [basic.eq_4 _ _ _ (fun _ _ _ _ _ h => absurd h hu)
      (fun _ _ _ _ _ _ _ _ _ h => absurd h hU), h]
  | number h =>
    show basic done ('\\' :: 'u' :: _ :: _ :: _ :: _ :: rest) = _
    rw [basic, h]

/-- A character that starts no escape and is no quote that two others follow is one of the text. -/
theorem multiBasic_cons (hplain : (isPlain c || c == '\n') = true) (hslash : c ≠ '\\')
    (h : c = '"' → ∀ r, rest ≠ '"' :: '"' :: r) (done : Reversed) :
    multiBasic false done (c :: rest) = multiBasic false (c :: done) rest := by
  have hreturn : c ≠ '\r' := by
    rintro rfl
    exact absurd hplain (by decide)
  rw [multiBasic.eq_8 _ _ _ _ (fun _ hc h' => h hc _ h') (fun _ hc h' => h hc _ h')
    (fun _ hc h' => h hc _ h') (fun _ h => absurd h hreturn) (fun _ _ _ _ _ h => absurd h hslash)
    (fun _ _ _ _ _ _ _ _ _ h => absurd h hslash) (fun _ _ h => absurd h hslash), hplain,
    bne_iff_ne.mpr hslash]
  rfl

theorem multiBasic_spelled (h : Spelled c spelling) (done : Reversed) (rest : List Char) :
    multiBasic false done (spelling ++ rest) = multiBasic false (c :: done) rest := by
  cases h with
  | plain hplain hquote hslash =>
    have hplain : (isPlain c || c == '\n') = true := Bool.or_eq_true_iff.mpr (.inl hplain)
    exact multiBasic_cons hplain hslash (fun h => absurd h hquote) done
  | letter h =>
    obtain ⟨hu, hU⟩ := ne_of_escaped h
    show multiBasic false done ('\\' :: _ :: rest) = _
    rw [multiBasic.eq_7 _ _ _ _ (fun _ _ _ _ _ h => absurd h hu)
      (fun _ _ _ _ _ _ _ _ _ h => absurd h hU), h]
  | number h =>
    show multiBasic false done ('\\' :: 'u' :: _ :: _ :: _ :: _ :: rest) = _
    rw [multiBasic, h]

/-! ### Basic strings -/

theorem exists_writeBasic_cons (c : Char) (cs : List Char) :
    ∃ spelling, Spelled c spelling ∧ writeBasic (c :: cs) = spelling ++ writeBasic cs := by
  obtain rfl | hquote := eq_or_ne c '"'
  · exact ⟨['\\', '"'], .letter rfl, rfl⟩
  · obtain rfl | hline := eq_or_ne c '\n'
    · exact ⟨['\\', 'n'], .letter rfl, rfl⟩
    · exact ⟨escape c, spelled_escape hquote, writeBasic.eq_4 c cs hquote hline⟩

theorem basic_writeBasic (cs : List Char) (done : Reversed) (rest : List Char) :
    basic done (writeBasic cs ++ '"' :: rest) = some (text (cs.reverse ++ done), rest) := by
  induction cs generalizing done with
  | nil => rfl
  | cons c cs ih =>
    obtain ⟨spelling, hspelled, heq⟩ := exists_writeBasic_cons c cs
    rw [heq, List.append_assoc, basic_spelled hspelled, ih, List.reverse_cons, List.append_assoc]
    rfl

/-! ### Basic strings of several lines -/

/-- Only quotes are written as they are, and only two of them in a row. -/
theorem exists_writeMultiBasic_cons (quotes : Nat) (h : c = '"' → 2 ≤ quotes) (cs : List Char) :
    ∃ d ds, writeMultiBasic quotes (c :: cs) = d :: ds ∧ d ≠ '"' := by
  obtain rfl | hquote := eq_or_ne c '"'
  · refine ⟨'\\', '"' :: writeMultiBasic 0 cs, ?_, by decide⟩
    rw [writeMultiBasic, if_pos (h rfl)]
  · obtain rfl | hline := eq_or_ne c '\n'
    · exact ⟨'\n', writeMultiBasic 0 cs, rfl, by decide⟩
    · obtain ⟨d, ds, hescape, -, hd⟩ := exists_cons_of_spelled (spelled_escape hquote)
      refine ⟨d, ds ++ writeMultiBasic 0 cs, ?_, hd⟩
      rw [writeMultiBasic.eq_4 _ _ _ hquote hline, hescape]
      rfl

/-- After a quote, two others follow only at the end of the text. -/
theorem writeMultiBasic_append_ne {quotes : Nat} {ds : List Char}
    (h : ¬ (c = '"' ∧ quotes = 0 ∧ ds = [])) (tail r : List Char) :
    writeMultiBasic (quotes + 1) (c :: ds) ++ tail ≠ '"' :: '"' :: r := by
  intro heq
  by_cases hsecond : c = '"' ∧ quotes = 0
  · obtain ⟨rfl, rfl⟩ := hsecond
    obtain ⟨e, es, rfl⟩ := List.exists_cons_of_ne_nil fun hnil => h ⟨rfl, rfl, hnil⟩
    obtain ⟨d, ds, hwrite, hd⟩ :=
      exists_writeMultiBasic_cons 2 (c := e) (fun _ => Nat.le_refl 2) es
    rw [writeMultiBasic, if_neg (by decide), hwrite] at heq
    exact hd (List.cons.inj (List.cons.inj heq).2).1
  · obtain ⟨d, ds, hwrite, hd⟩ := exists_writeMultiBasic_cons (quotes + 1)
      (fun hc => Nat.succ_le_succ (Nat.one_le_iff_ne_zero.mpr fun hq => hsecond ⟨hc, hq⟩)) ds
    rw [hwrite] at heq
    exact hd (List.cons.inj heq).1

theorem multiBasic_writeMultiBasic (hrest : EndsQuotes rest) (quotes : Nat) (cs : List Char)
    (done : Reversed) :
    multiBasic false done (writeMultiBasic quotes cs ++ '"' :: '"' :: '"' :: rest) =
      some (text (cs.reverse ++ done), rest) := by
  have hclose : ∀ r, rest ≠ '"' :: r := fun r hr => hrest.1 (hr ▸ rfl)
  induction cs generalizing quotes done with
  | nil =>
    show multiBasic false done ('"' :: '"' :: '"' :: rest) = _
    rw [multiBasic.eq_3 _ _ _ (fun _ h => hclose _ h) (fun _ h => hclose _ h)]
    rfl
  | cons c cs ih =>
    rw [List.reverse_cons, List.append_assoc]
    obtain rfl | hquote := eq_or_ne c '"'
    · by_cases hthird : 2 ≤ quotes
      · rw [writeMultiBasic, if_pos hthird, ← ih 0]
        exact multiBasic_spelled (.letter rfl) done _
      · rw [writeMultiBasic, if_neg hthird]
        cases cs with
        | nil =>
          show multiBasic false done ('"' :: '"' :: '"' :: '"' :: rest) = _
          rw [multiBasic.eq_2 _ _ _ (fun _ h => hclose _ h)]
          rfl
        | cons d ds =>
          by_cases hlast : d = '"' ∧ quotes = 0 ∧ ds = []
          · obtain ⟨rfl, rfl, rfl⟩ := hlast
            show multiBasic false done ('"' :: '"' :: '"' :: '"' :: '"' :: rest) = _
            rw [multiBasic]
            rfl
          · have hopen := writeMultiBasic_append_ne hlast ('"' :: '"' :: '"' :: rest)
            rw [List.cons_append, multiBasic_cons rfl (by decide) (fun _ => hopen), ih]
            rfl
    · obtain rfl | hline := eq_or_ne c '\n'
      · rw [writeMultiBasic, ← ih 0]
        exact multiBasic_cons rfl (by decide) (fun h => absurd h (by decide)) done
      · rw [writeMultiBasic.eq_4 _ _ _ hquote hline, List.append_assoc,
          multiBasic_spelled (spelled_escape hquote), ih]
        rfl

/-! ### Literal strings -/

theorem literal_append (h : ∀ c ∈ cs, isPlain c = true ∧ c ≠ '\'') (done : Reversed)
    (rest : List Char) :
    literal done (cs ++ '\'' :: rest) = some (text (cs.reverse ++ done), rest) := by
  induction cs generalizing done with
  | nil => rfl
  | cons c cs ih =>
    obtain ⟨⟨hplain, hquote⟩, hcs⟩ := List.forall_mem_cons.mp h
    rw [List.cons_append, literal.eq_2 _ _ _ hquote, if_pos hplain, ih hcs, List.reverse_cons,
      List.append_assoc]
    rfl

/-- A character that is no quote, or a quote that no two others follow, is one of the text. -/
theorem multiLiteral_cons (hplain : (isPlain c || c == '\n') = true)
    (h : c = '\'' → ∀ r, rest ≠ '\'' :: '\'' :: r) (done : Reversed) :
    multiLiteral done (c :: rest) = multiLiteral (c :: done) rest := by
  have hreturn : c ≠ '\r' := by
    rintro rfl
    exact absurd hplain (by decide)
  rw [multiLiteral.eq_5 _ _ _ (fun _ hc h' => h hc _ h') (fun _ hc h' => h hc _ h')
    (fun _ hc h' => h hc _ h') (fun _ h => absurd h hreturn), if_pos hplain]

theorem multiLiteral_append (hrest : EndsQuotes rest)
    (hplain : ∀ c ∈ cs, (isPlain c || c == '\n') = true)
    (hrun : ¬ ['\'', '\'', '\''] <:+: cs) (done : Reversed) :
    multiLiteral done (cs ++ '\'' :: '\'' :: '\'' :: rest) =
      some (text (cs.reverse ++ done), rest) := by
  have hclose : ∀ r, rest ≠ '\'' :: r := fun r hr => hrest.2 (hr ▸ rfl)
  induction cs generalizing done with
  | nil =>
    show multiLiteral done ('\'' :: '\'' :: '\'' :: rest) = _
    rw [multiLiteral.eq_3 _ _ (fun _ h => hclose _ h) (fun _ h => hclose _ h)]
    rfl
  | cons c cs ih =>
    have ih := ih (List.forall_mem_cons.mp hplain).2
      (fun h => hrun (h.trans (List.suffix_cons c cs).isInfix)) (c :: done)
    by_cases hend : c = '\'' ∧ (cs = [] ∨ cs = ['\''])
    · obtain ⟨rfl, rfl | rfl⟩ := hend
      · show multiLiteral done ('\'' :: '\'' :: '\'' :: '\'' :: rest) = _
        rw [multiLiteral.eq_2 _ _ (fun _ h => hclose _ h)]
        rfl
      · rfl
    · rw [List.cons_append, multiLiteral_cons (hplain c List.mem_cons_self), ih, List.reverse_cons,
        List.append_assoc]
      · rfl
      · rintro rfl r heq
        match cs, heq with
        | [], _ => exact hend ⟨rfl, .inl rfl⟩
        | [d], heq => exact hend ⟨rfl, .inr (by rw [(List.cons.inj heq).1])⟩
        | d :: e :: ds, heq =>
          obtain ⟨hd, htail⟩ := List.cons.inj heq
          obtain ⟨he, -⟩ := List.cons.inj htail
          rw [hd, he] at hrun
          exact hrun (List.prefix_append ['\'', '\'', '\''] ds).isInfix

/-! ### The kind of a literal -/

theorem le_longestRun_self (q : Char) (run : Nat) (cs : List Char) : run ≤ longestRun q run cs := by
  induction cs generalizing run with
  | nil => exact Nat.le_refl run
  | cons d ds ih =>
    rw [longestRun]
    split
    · exact Nat.le_of_succ_le (ih (run + 1))
    · exact Nat.le_max_left _ _

theorem add_le_longestRun {q : Char} {n run : Nat} (h : List.replicate n q <+: cs) :
    run + n ≤ longestRun q run cs := by
  induction n generalizing run cs with
  | zero => exact le_longestRun_self q run cs
  | succ n ih =>
    obtain ⟨ds, rfl⟩ := h
    rw [List.replicate_succ, List.cons_append, longestRun, if_pos rfl, ← Nat.succ_add_eq_add_succ]
    exact ih (List.prefix_append _ ds)

/-- The longest run of a character is at least as long as any run of it. -/
theorem le_longestRun {q : Char} {n run : Nat} (h : List.replicate n q <:+: cs) :
    n ≤ longestRun q run cs := by
  induction cs generalizing run with
  | nil =>
    have hprefix : List.replicate n q <+: [] := List.infix_nil.mp h ▸ List.nil_prefix
    exact Nat.le_trans (Nat.le_add_left n run) (add_le_longestRun hprefix)
  | cons d ds ih =>
    rcases List.infix_cons_iff.mp h with h | h
    · exact Nat.le_trans (Nat.le_add_left n run) (add_le_longestRun h)
    · rw [longestRun]
      split
      · exact ih h
      · exact Nat.le_trans (ih h) (Nat.le_max_right _ _)

theorem ne_of_longestRun_eq_zero {q : Char} (h : longestRun q 0 cs = 0) : ∀ c ∈ cs, c ≠ q := by
  rintro c hc rfl
  have hrun : List.replicate 1 c <:+: cs := (List.singleton_infix_iff c cs).mpr hc
  exact absurd (le_longestRun hrun) (by rw [h]; decide)

/-- A text without control characters has nothing but plain characters and line feeds. -/
theorem isPlain_of_control (h : (Traits.of cs).control = false) :
    ∀ c ∈ cs, (isPlain c || c == '\n') = true := by
  intro c hc
  have hcontrol : ¬ isControl c = true := List.any_eq_false.mp h c hc
  unfold isControl isPlain at *
  grind

theorem isPlain_of_newline (hcontrol : (Traits.of cs).control = false)
    (hnewline : (Traits.of cs).newline = false) : ∀ c ∈ cs, isPlain c = true := by
  intro c hc
  have hline : c ≠ '\n' := by
    rintro rfl
    exact Bool.false_ne_true (hnewline.symm.trans (List.contains_iff_mem.mpr hc))
  have hplain := isPlain_of_control hcontrol c hc
  rwa [beq_eq_false_iff_ne.mpr hline, Bool.or_false] at hplain

/-- What follows the opening quotes on the same line is left alone. -/
theorem afterLineEnd_cons (h : isPlain c = true) (cs : List Char) :
    afterLineEnd (c :: cs) = c :: cs := by
  refine afterLineEnd.eq_3 _ ?_ ?_
  · rintro r heq
    rw [(List.cons.inj heq).1] at h
    exact absurd h (by decide)
  · rintro r heq
    rw [(List.cons.inj heq).1] at h
    exact absurd h (by decide)

theorem kindFor_eq_literal {t : Traits} (h : kindFor t = .literal) :
    t.control = false ∧ t.singles = 0 ∧ t.newline = false := by
  unfold kindFor at h
  grind

theorem kindFor_eq_multiLiteral {t : Traits} (h : kindFor t = .multiLiteral) :
    t.control = false ∧ t.singles ≤ 2 := by
  unfold kindFor at h
  grind

/-! ### Literals of each kind -/

theorem read_basic (hrest : EndsQuotes rest) (cs : List Char) :
    read ('"' :: (writeBasic cs ++ ['"']) ++ rest) = some (text cs.reverse, rest) := by
  rw [List.cons_append, List.append_assoc, List.singleton_append, read.eq_2, basic_writeBasic,
    List.append_nil]
  intro r heq
  cases cs with
  | nil =>
    obtain ⟨-, hr⟩ := List.cons.inj heq
    exact hrest.1 (hr ▸ rfl)
  | cons c cs =>
    obtain ⟨spelling, hspelled, hwrite⟩ := exists_writeBasic_cons c cs
    obtain ⟨d, ds, rfl, -, hd⟩ := exists_cons_of_spelled hspelled
    rw [hwrite] at heq
    exact hd (List.cons.inj heq).1

theorem read_literal (hkind : kindFor (Traits.of cs) = .literal) (rest : List Char) :
    read ('\'' :: (cs ++ ['\'']) ++ rest) = some (text cs.reverse, rest) := by
  obtain ⟨hcontrol, hsingles, hnewline⟩ := kindFor_eq_literal hkind
  have hchars : ∀ c ∈ cs, isPlain c = true ∧ c ≠ '\'' := fun c hc =>
    ⟨isPlain_of_newline hcontrol hnewline c hc, ne_of_longestRun_eq_zero hsingles c hc⟩
  rw [List.cons_append, List.append_assoc, List.singleton_append, read.eq_4, literal_append hchars,
    List.append_nil]
  intro r heq
  cases cs with
  | nil => exact absurd hkind (by decide)
  | cons c cs => exact (hchars c List.mem_cons_self).2 (List.cons.inj heq).1

/-- A text of several lines starts on a line of its own, or has no line end at its start. -/
theorem afterLineEnd_opening (newline : Bool) {body : List Char}
    (h : newline = false → ∃ c cs, body = c :: cs ∧ isPlain c = true) :
    afterLineEnd ((if newline = true then ['\n'] else []) ++ body) = body := by
  cases newline with
  | true => rfl
  | false =>
    obtain ⟨c, cs, rfl, hplain⟩ := h rfl
    exact afterLineEnd_cons hplain cs

theorem read_multiBasic (hrest : EndsQuotes rest) (cs : List Char) :
    read (['"', '"', '"'] ++ (if (Traits.of cs).newline = true then ['\n'] else [])
      ++ writeMultiBasic 0 cs ++ ['"', '"', '"'] ++ rest) = some (text cs.reverse, rest) := by
  have hopening : (Traits.of cs).newline = false → ∃ c ds,
      writeMultiBasic 0 cs ++ '"' :: '"' :: '"' :: rest = c :: ds ∧ isPlain c = true := by
    intro hnewline
    cases cs with
    | nil => exact ⟨'"', _, rfl, by decide⟩
    | cons c cs =>
      obtain rfl | hquote := eq_or_ne c '"'
      · exact ⟨'"', _, rfl, by decide⟩
      · have hline : c ≠ '\n' := by
          rintro rfl
          have hmem := List.contains_iff_mem.mpr (List.mem_cons_self (a := '\n') (l := cs))
          exact Bool.false_ne_true (hnewline.symm.trans hmem)
        obtain ⟨d, ds, hescape, hplain, -⟩ := exists_cons_of_spelled (spelled_escape hquote)
        refine ⟨d, ds ++ writeMultiBasic 0 cs ++ '"' :: '"' :: '"' :: rest, ?_, hplain⟩
        rw [writeMultiBasic.eq_4 _ _ _ hquote hline, hescape]
        rfl
  rw [List.append_assoc, List.append_assoc, List.append_assoc]
  show read ('"' :: '"' :: '"' :: _) = _
  rw [read]
  show multiBasic false []
    (afterLineEnd (_ ++ (writeMultiBasic 0 cs ++ '"' :: '"' :: '"' :: rest))) = _
  rw [afterLineEnd_opening _ hopening, multiBasic_writeMultiBasic hrest, List.append_nil]

theorem read_multiLiteral (hrest : EndsQuotes rest)
    (hkind : kindFor (Traits.of cs) = .multiLiteral) :
    read (['\'', '\'', '\''] ++ (if (Traits.of cs).newline = true then ['\n'] else [])
      ++ cs ++ ['\'', '\'', '\''] ++ rest) = some (text cs.reverse, rest) := by
  obtain ⟨hcontrol, hsingles⟩ := kindFor_eq_multiLiteral hkind
  have hopening : (Traits.of cs).newline = false → ∃ c ds,
      cs ++ '\'' :: '\'' :: '\'' :: rest = c :: ds ∧ isPlain c = true := by
    intro hnewline
    cases cs with
    | nil => exact ⟨'\'', _, rfl, by decide⟩
    | cons c cs => exact ⟨c, _, rfl, isPlain_of_newline hcontrol hnewline c List.mem_cons_self⟩
  have hrun : ¬ ['\'', '\'', '\''] <:+: cs := fun hinfix =>
    absurd (le_longestRun (n := 3) hinfix) (Nat.not_le.mpr (Nat.lt_succ_of_le hsingles))
  rw [List.append_assoc, List.append_assoc, List.append_assoc]
  show read ('\'' :: '\'' :: '\'' :: _) = _
  rw [read]
  show multiLiteral [] (afterLineEnd (_ ++ (cs ++ '\'' :: '\'' :: '\'' :: rest))) = _
  rw [afterLineEnd_opening _ hopening, multiLiteral_append hrest (isPlain_of_control hcontrol) hrun,
    List.append_nil]

/-- A literal is read as its text. -/
theorem read_write (hrest : EndsQuotes rest) (s : String) :
    read (write s ++ rest) = some (s, rest) := by
  have htext : text s.toList.reverse = s := by
    rw [text, List.reverse_reverse, String.ofList_toList]
  have hread : read (write s ++ rest) = some (text s.toList.reverse, rest) := by
    dsimp only [write]
    cases hkind : kindFor (Traits.of s.toList) with
    | basic => exact read_basic hrest _
    | literal => exact read_literal hkind rest
    | multiBasic => exact read_multiBasic hrest _
    | multiLiteral => exact read_multiLiteral hrest hkind
  rw [hread, htext]

end CodeAtlas.Toml.Text
