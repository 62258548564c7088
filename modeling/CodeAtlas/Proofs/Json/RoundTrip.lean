import CodeAtlas.Json.Reader
import CodeAtlas.Proofs.Json.Numeral
import CodeAtlas.Proofs.Text.Hex

/-!
# What is written is read back

The text of a value is read as the same value, with every number replaced by the one that its text
stands for. That holds in every layout that puts only blanks between the tokens.

* `Token.scan_quote`   a text between quotes is one token, whatever characters it has;
* `Token.scan_chars`   so is a numeral, up to what cannot go on with it;
* `tokens`, `scan_write`   the tokens of a value, which are those of its text;
* `foldlM_tokens`      reading the tokens of a value completes it;
* `parse?_write`       reading the text of a value.
-/

namespace CodeAtlas.Json

variable {rest : List Char}

namespace Token

/-! ### Scanning from token to token -/

theorem scanFrom_eq (mode : Mode) (done : List Token) (cs : List Char) :
    scanFrom mode done cs = (scanFrom mode [] cs).map (done.reverse ++ ·) := by
  induction cs generalizing mode done with
  | nil =>
    rw [scanFrom, scanFrom, Option.map_map]
    rfl
  | cons c cs ih =>
    rw [scanFrom, scanFrom]
    cases step mode c with
    | none => rfl
    | some next =>
      show scanFrom next.2 _ cs = (scanFrom next.2 _ cs).map _
      rw [ih next.2 (next.1.reverse ++ done), ih next.2 (next.1.reverse ++ []), Option.map_map]
      refine congrArg (Option.map · _) (funext fun ts => ?_)
      simp

theorem scanFrom_cons {mode next : Mode} {c : Char} {ts : List Token}
    (h : step mode c = some (ts, next)) (rest : List Char) :
    scanFrom mode [] (c :: rest) = (scanFrom next [] rest).map (ts ++ ·) := by
  rw [scanFrom, h]
  show scanFrom next _ rest = _
  rw [scanFrom_eq, List.append_nil, List.reverse_reverse]

theorem scanFrom_next {mode next : Mode} {c : Char} (h : step mode c = some ([], next))
    (rest : List Char) : scanFrom mode [] (c :: rest) = scanFrom next [] rest := by
  rw [scanFrom, h]
  rfl

theorem scan_punctuation {c : Char} {t : Token} (h : start c = some ([t], .between))
    (rest : List Char) : scan (c :: rest) = (scan rest).map (t :: ·) :=
  scanFrom_cons (show step .between c = _ from h) rest

theorem scan_blanks {blanks : List Char} (h : ∀ c ∈ blanks, isSpace c = true)
    (rest : List Char) : scan (blanks ++ rest) = scan rest := by
  induction blanks with
  | nil => rfl
  | cons c blanks ih =>
    obtain ⟨hc, hblanks⟩ := List.forall_mem_cons.mp h
    have hstep : step .between c = some ([], .between) := if_pos hc
    rw [List.cons_append, scan, scanFrom_next hstep]
    exact ih hblanks

/-! ### Literals -/

/-- what has been read of a literal without surrogates, last character first -/
def reading (read : List Char) : Literal := ⟨read, none, true⟩

theorem step_hex {n : Nat} (h : n < 16) (l : Literal) (value missing : Nat) :
    step (.hex l value missing) (Nat.digitChar n) = some ([], if missing ≤ 1 then
      .inside (l.pushUnit (value * 16 + n)) else .hex l (value * 16 + n) (missing - 1)) := by
  rw [step, Text.hexValue?_digitChar n h]
  rfl

theorem pushUnit_reading (read : List Char) {u : Nat} (h : u < 0x20) :
    (reading read).pushUnit u = reading (Char.ofNat u :: read) := by
  have hhigh : ¬ (decide (0xD800 ≤ u) && decide (u < 0xDC00)) = true := by
    rw [Bool.and_eq_true, decide_eq_true_iff]
    omega
  have hlow : ¬ (decide (0xDC00 ≤ u) && decide (u < 0xE000)) = true := by
    rw [Bool.and_eq_true, decide_eq_true_iff]
    omega
  rw [Literal.pushUnit, if_neg hhigh, if_neg hlow]
  rfl

/-- A control character is written by its number. -/
theorem scanFrom_control (read : List Char) {c : Char} (h : c.toNat < 0x20) (rest : List Char) :
    scanFrom (.inside (reading read)) [] (['\\', 'u', '0', '0'] ++ Text.hexPair c.toNat ++ rest) =
      scanFrom (.inside (reading (c :: read))) [] rest := by
  have hhex : step (.hex (reading read) 0 2) (Nat.digitChar (c.toNat / 16)) = _ :=
    step_hex (by omega) _ _ _
  have hlast : step (.hex (reading read) (0 * 16 + c.toNat / 16) 1)
      (Nat.digitChar (c.toNat % 16)) = _ :=
    step_hex (by omega) _ _ _
  have hvalue : (0 * 16 + c.toNat / 16) * 16 + c.toNat % 16 = c.toNat := by omega
  rw [hvalue, if_pos (Nat.le_refl 1), pushUnit_reading read h, Char.ofNat_toNat] at hlast
  show scanFrom (.inside (reading read)) [] ('\\' :: 'u' :: '0' :: '0' :: _ :: _ :: rest) = _
  rw [scanFrom_next rfl, scanFrom_next rfl, scanFrom_next rfl, scanFrom_next rfl]
  show scanFrom (.hex (reading read) 0 2) [] _ = _
  rw [scanFrom_next hhex]
  exact scanFrom_next hlast rest

/-- A character between quotes is read as it was, however it is written. -/
theorem scanFrom_escapeChar (read : List Char) (c : Char) (rest : List Char) :
    scanFrom (.inside (reading read)) [] (escapeChar c ++ rest) =
      scanFrom (.inside (reading (c :: read))) [] rest := by
  unfold escapeChar
  split
  case h_8 hquote hslash _ _ _ _ _ =>
    split
    · rename_i hcontrol
      exact scanFrom_control read hcontrol rest
    · rename_i hplain
      have hstep : step (.inside (reading read)) c = some ([], .inside (reading (c :: read))) := by
        rw [step, if_neg fun h => hquote (beq_iff_eq.mp h), if_neg fun h => hslash (beq_iff_eq.mp h),
          if_neg hplain]
        rfl
      exact scanFrom_next hstep rest
  all_goals rfl

theorem scanFrom_escaped (read cs rest : List Char) :
    scanFrom (.inside (reading read)) [] (cs.flatMap escapeChar ++ '"' :: rest) =
      (scan rest).map (.string (some (String.ofList (read.reverse ++ cs))) :: ·) := by
  induction cs generalizing read with
  | nil =>
    have hend : step (.inside (reading read)) '"' =
        some ([.string (some (String.ofList read.reverse))], .between) := rfl
    rw [List.append_nil]
    exact scanFrom_cons hend rest
  | cons c cs ih =>
    rw [List.flatMap_cons, List.append_assoc, scanFrom_escapeChar, ih, List.reverse_cons,
      List.append_assoc, List.singleton_append]

theorem scan_quote (s : String) (rest : List Char) :
    scan (quote s ++ rest) = (scan rest).map (.string (some s) :: ·) := by
  have hquote : quote s ++ rest = '"' :: (s.toList.flatMap escapeChar ++ '"' :: rest) := by
    rw [quote, List.cons_append, List.append_assoc]
    rfl
  rw [hquote, scan, scanFrom_next rfl]
  show scanFrom (.inside (reading [])) [] _ = _
  rw [scanFrom_escaped, List.reverse_nil, List.nil_append, String.ofList_toList]

/-! ### Numerals and words -/

/-- what ends a numeral or a word before it -/
def Ends (cs : List Char) : Prop :=
  ∀ c ∈ cs.head?, isNumeralChar c = false ∧ c.isLower = false

theorem scanFrom_complete {mode : Mode} {t : Token} (hfinish : finish mode = some [t])
    (hstep : ∀ c, isNumeralChar c = false → c.isLower = false →
      step mode c = (start c).map fun (ts, next) => (t :: ts, next)) (h : Ends rest) :
    scanFrom mode [] rest = (scan rest).map (t :: ·) := by
  cases rest with
  | nil => rw [scanFrom, hfinish]; rfl
  | cons c rest =>
    obtain ⟨hnumeral, hlower⟩ := h c rfl
    have hbetween : step .between c = start c := rfl
    rw [scan, scanFrom, scanFrom, hstep c hnumeral hlower, hbetween]
    cases start c with
    | none => rfl
    | some next =>
      show scanFrom next.2 _ rest = (scanFrom next.2 _ rest).map _
      rw [scanFrom_eq, scanFrom_eq next.2 (next.1.reverse ++ []), Option.map_map]
      refine congrArg (Option.map · _) (funext fun ts => ?_)
      simp

theorem scanFrom_numeral (read cs rest : List Char) (h : ∀ c ∈ cs, isNumeralChar c = true) :
    scanFrom (.numeral read) [] (cs ++ rest) = scanFrom (.numeral (cs.reverse ++ read)) [] rest := by
  induction cs generalizing read with
  | nil => rfl
  | cons c cs ih =>
    obtain ⟨hc, hcs⟩ := List.forall_mem_cons.mp h
    have hstep : step (.numeral read) c = some ([], .numeral (c :: read)) := by
      rw [step, if_pos hc]
    rw [List.cons_append, scanFrom_next hstep, ih (c :: read) hcs, List.reverse_cons,
      List.append_assoc, List.singleton_append]

theorem start_of_digit {c : Char} (h : (c.isDigit || c == '-') = true) :
    start c = some ([], .numeral [c]) := by
  have hspace : ¬ isSpace c = true := by
    intro hspace
    simp only [isSpace, Bool.or_eq_true, beq_iff_eq] at hspace
    obtain ((rfl | rfl) | rfl) | rfl := hspace <;> exact absurd h (by decide)
  have hquote : ¬ (c == '"') = true := by
    rw [beq_iff_eq]
    rintro rfl
    exact absurd h (by decide)
  unfold start
  rw [if_neg hspace, if_neg hquote, if_pos h]

open Numeral in
theorem scan_chars {p : Parts} (h : p.WellFormed) (hrest : Ends rest) :
    scan (p.chars ++ rest) = (scan rest).map (.number p.number :: ·) := by
  obtain ⟨c, cs, hchars, hc⟩ := Parts.exists_cons_chars h
  have htoken : ofNumeral p.chars.reverse = some (.number p.number) := by
    rw [ofNumeral, List.reverse_reverse, Parts.ofChars?_chars h]
    rfl
  have hall := Parts.isNumeralChar_chars h
  rw [hchars] at hall ⊢
  have hstart : step .between c = some ([], .numeral [c]) := start_of_digit hc
  rw [List.cons_append, scan, scanFrom_next hstart,
    scanFrom_numeral [c] cs rest (List.forall_mem_cons.mp hall).2, ← List.reverse_cons, ← hchars]
  refine scanFrom_complete (by rw [finish, htoken]; rfl) (fun c hc _ => ?_) hrest
  rw [step, if_neg (by rw [hc]; exact Bool.false_ne_true), htoken]
  cases start c <;> rfl

theorem scanFrom_word {read : List Char} {t : Token} (h : ofWord read = some t)
    (hrest : Ends rest) : scanFrom (.word read) [] rest = (scan rest).map (t :: ·) := by
  refine scanFrom_complete (by rw [finish, h]; rfl) (fun c _ hc => ?_) hrest
  rw [step, if_neg (by rw [hc]; exact Bool.false_ne_true), h]
  cases start c <;> rfl

theorem scan_null (hrest : Ends rest) :
    scan (['n', 'u', 'l', 'l'] ++ rest) = (scan rest).map (.null :: ·) :=
  scanFrom_word (show ofWord ['l', 'l', 'u', 'n'] = some .null from rfl) hrest

theorem scan_true (hrest : Ends rest) :
    scan (['t', 'r', 'u', 'e'] ++ rest) = (scan rest).map (.bool true :: ·) :=
  scanFrom_word (show ofWord ['e', 'u', 'r', 't'] = some (.bool true) from rfl) hrest

theorem scan_false (hrest : Ends rest) :
    scan (['f', 'a', 'l', 's', 'e'] ++ rest) = (scan rest).map (.bool false :: ·) :=
  scanFrom_word (show ofWord ['e', 's', 'l', 'a', 'f'] = some (.bool false) from rfl) hrest

end Token

/-! ### Values -/

/-- what the text of a number stands for, which may be another number -/
def Number.readBack (n : Number) : Json :=
  match Numeral.Parts.ofChars? n.text with
  | some p => p.number.elim .unreadable .number
  | none => .null

theorem Number.readBack_cases (n : Number) :
    (∃ n', n.readBack = .number n') ∨ n.readBack = .unreadable ∨ n.readBack = .null := by
  unfold readBack
  cases Numeral.Parts.ofChars? n.text with
  | none => exact .inr (.inr rfl)
  | some p =>
    cases hnumber : p.number with
    | none => exact .inr (.inl (by simp only [hnumber]; rfl))
    | some n' => exact .inl ⟨n', by simp only [hnumber]; rfl⟩

theorem Number.readBack_eq_number {n n' : Number}
    (h : (Numeral.Parts.ofChars? n.text).bind (·.number) = some n') : n.readBack = .number n' := by
  obtain ⟨p, hp, hnumber⟩ := Option.bind_eq_some_iff.mp h
  unfold readBack
  rw [hp]
  dsimp only
  rw [hnumber]
  rfl

/-- The largest number is too close to what is out of range for the midpoint below it. -/
theorem Number.largest_readBack : ∀ negative : Bool,
    ((Numeral.Parts.ofChars? (Number.float (.ofRank negative (Binary64.infinityRank - 1))).text).bind
      (·.number)).isSome = true := by
  decide +kernel

/-- The text of a finite number stands for a number. -/
theorem Number.exists_readBack {x : Binary64} (h : x.isFinite = true) :
    ∃ n, (Number.float x).readBack = .number n := by
  suffices h : ((Numeral.Parts.ofChars? (Number.float x).text).bind (·.number)).isSome = true from
    (Option.isSome_iff_exists.mp h).imp fun _ => readBack_eq_number
  by_cases hlargest : x.rank + 1 < Binary64.infinityRank
  · obtain ⟨p, hp, hfloat, htext, hfits⟩ := Decimal.exists_parts_text h
    have hparts : Numeral.Parts.ofChars? (Number.float x).text = some p :=
      (congrArg _ htext).trans (Numeral.Parts.ofChars?_chars hp)
    rw [hparts, Option.bind_some, Numeral.Parts.number_of_float hfloat, Option.isSome_map]
    exact (hfits hlargest).float_isSome
  · have hrank : x.rank = Binary64.infinityRank - 1 := by
      have := (Binary64.isFinite_iff x).mp h
      omega
    rw [← Binary64.ofRank_rank h, hrank]
    exact largest_readBack x.negative

mutual

/-- the value that is read back: the same one, but for its numbers -/
def readBack : Json → Json
  | .null => .null
  | .bool b => .bool b
  | .number n => n.readBack
  | .string s => .string s
  | .array items => .array (readBackItems items)
  | .object members => .object (readBackMembers members)
  | .unreadable => .null

def readBackItems : List Json → List Json
  | [] => []
  | v :: rest => v.readBack :: readBackItems rest

def readBackMembers : List (String × Json) → List (String × Json)
  | [] => []
  | (k, v) :: rest => (k, v.readBack) :: readBackMembers rest

end

/-! Reading back keeps the nesting. -/

mutual

theorem depth_readBack : ∀ v : Json, v.readBack.depth = v.depth
  | .null => rfl
  | .bool _ => rfl
  | .number n => by
    rw [readBack]
    obtain ⟨n', hn⟩ | hn | hn := n.readBack_cases <;> rw [hn] <;> rfl
  | .string _ => rfl
  | .array items => congrArg (· + 1) (depth_readBackItems items)
  | .object members => congrArg (· + 1) (depth_readBackMembers members)
  | .unreadable => rfl

theorem depth_readBackItems : ∀ vs : List Json,
    depth.depthItems (readBackItems vs) = depth.depthItems vs
  | [] => rfl
  | v :: vs => congrArg₂ max (depth_readBack v) (depth_readBackItems vs)

theorem depth_readBackMembers : ∀ members : List (String × Json),
    depth.depthMembers (readBackMembers members) = depth.depthMembers members
  | [] => rfl
  | (_, v) :: members => congrArg₂ max (depth_readBack v) (depth_readBackMembers members)

end

def Number.token (n : Number) : Token :=
  match Numeral.Parts.ofChars? n.text with
  | some p => .number p.number
  | none => .null

mutual

def tokens : Json → List Token
  | .null => [.null]
  | .bool b => [.bool b]
  | .number n => [n.token]
  | .string s => [.string (some s)]
  | .array [] => [.openArray, .closeArray]
  | .array (v :: rest) => .openArray :: (v.tokens ++ tokensItems rest ++ [.closeArray])
  | .object [] => [.openObject, .closeObject]
  | .object ((k, v) :: rest) =>
    .openObject :: .string (some k) :: .colon ::
      (v.tokens ++ tokensMembers rest ++ [.closeObject])
  | .unreadable => [.null]

def tokensItems : List Json → List Token
  | [] => []
  | v :: rest => .comma :: (v.tokens ++ tokensItems rest)

def tokensMembers : List (String × Json) → List Token
  | [] => []
  | (k, v) :: rest =>
    .comma :: .string (some k) :: .colon :: (v.tokens ++ tokensMembers rest)

end

/-! ### Scanning the text of a value -/

/-- only blanks stand between the tokens -/
structure Layout.Blank (l : Layout) : Prop where
  line : ∀ level, ∀ c ∈ l.line level, Token.isSpace c = true
  gap : ∀ c ∈ l.gap, Token.isSpace c = true

theorem Layout.blank_compact : Layout.compact.Blank := ⟨fun _ => nofun, nofun⟩

namespace Token

theorem ends_cons {c : Char} (h : isNumeralChar c = false ∧ c.isLower = false)
    (rest : List Char) : Ends (c :: rest) := fun _ hc => Option.some.inj hc ▸ h

theorem ends_of_isSpace {c : Char} (h : isSpace c = true) :
    isNumeralChar c = false ∧ c.isLower = false := by
  simp only [isSpace, Bool.or_eq_true, beq_iff_eq] at h
  obtain ((rfl | rfl) | rfl) | rfl := h <;> decide

theorem ends_blanks {blanks : List Char} (h : ∀ c ∈ blanks, isSpace c = true)
    (hrest : Ends rest) : Ends (blanks ++ rest) := by
  cases blanks with
  | nil => exact hrest
  | cons c blanks => exact ends_cons (ends_of_isSpace (h c List.mem_cons_self)) _

theorem ends_writeItems (l : Layout) (level : Nat) (vs : List Json) (hrest : Ends rest) :
    Ends (writeItems l level vs ++ rest) := by
  cases vs with
  | nil => exact hrest
  | cons v vs => exact ends_cons (by decide) _

theorem ends_writeMembers (l : Layout) (level : Nat) (members : List (String × Json))
    (hrest : Ends rest) : Ends (writeMembers l level members ++ rest) := by
  cases members with
  | nil => exact hrest
  | cons member members => exact ends_cons (by decide) _

theorem scan_number (n : Number) (hrest : Ends rest) :
    scan (n.text ++ rest) = (scan rest).map (n.token :: ·) := by
  unfold Number.token
  obtain ⟨p, hp, htext⟩ | htext := n.text_cases
  · rw [htext, Numeral.Parts.ofChars?_chars hp]
    exact scan_chars hp hrest
  · rw [htext]
    exact scan_null hrest

end Token

open Token

section Scanning

variable {l : Layout}

mutual

theorem scan_write (hl : l.Blank) : ∀ (v : Json) (level : Nat) (rest : List Char), Ends rest →
    scan (v.write l level ++ rest) = (scan rest).map (v.tokens ++ ·)
  | .null, _, _, hrest => scan_null hrest
  | .bool true, _, _, hrest => scan_true hrest
  | .bool false, _, _, hrest => scan_false hrest
  | .number n, _, _, hrest => scan_number n hrest
  | .string s, _, rest, _ => scan_quote s rest
  | .unreadable, _, _, hrest => scan_null hrest
  | .array [], _, rest, _ => by
    show scan ('[' :: ']' :: rest) = _
    rw [scan_punctuation rfl, scan_punctuation rfl, Option.map_map]
    rfl
  | .array (v :: vs), level, rest, hrest => by
    have hclose : Ends (l.line level ++ ']' :: rest) :=
      ends_blanks (hl.line level) (ends_cons (by decide) rest)
    have htext : (Json.array (v :: vs)).write l level ++ rest =
        '[' :: (l.line (level + 1) ++ (v.write l (level + 1) ++
          (writeItems l (level + 1) vs ++ (l.line level ++ ']' :: rest)))) := by
      simp only [write, List.cons_append, List.append_assoc, List.nil_append]
    rw [htext, scan_punctuation rfl, scan_blanks (hl.line _),
      scan_write hl v _ _ (ends_writeItems l _ vs hclose), scan_writeItems hl vs _ _ hclose,
      scan_blanks (hl.line _), scan_punctuation rfl, Option.map_map, Option.map_map, Option.map_map]
    refine congrArg (Option.map · _) (funext fun ts => ?_)
    simp [tokens]
  | .object [], _, rest, _ => by
    show scan ('\x7b' :: '\x7d' :: rest) = _
    rw [scan_punctuation rfl, scan_punctuation rfl, Option.map_map]
    rfl
  | .object ((k, v) :: members), level, rest, hrest => by
    have hclose : Ends (l.line level ++ '\x7d' :: rest) :=
      ends_blanks (hl.line level) (ends_cons (by decide) rest)
    have htext : (Json.object ((k, v) :: members)).write l level ++ rest =
        '\x7b' :: (l.line (level + 1) ++ (quote k ++ (':' :: (l.gap ++ (v.write l (level + 1) ++
          (writeMembers l (level + 1) members ++ (l.line level ++ '\x7d' :: rest))))))) := by
      simp only [write, List.cons_append, List.append_assoc, List.nil_append]
    rw [htext, scan_punctuation rfl, scan_blanks (hl.line _), scan_quote, scan_punctuation rfl,
      scan_blanks hl.gap, scan_write hl v _ _ (ends_writeMembers l _ members hclose),
      scan_writeMembers hl members _ _ hclose, scan_blanks (hl.line _), scan_punctuation rfl]
    simp only [Option.map_map]
    refine congrArg (Option.map · _) (funext fun ts => ?_)
    simp [tokens]

theorem scan_writeItems (hl : l.Blank) : ∀ (vs : List Json) (level : Nat) (rest : List Char),
    Ends rest → scan (writeItems l level vs ++ rest) = (scan rest).map (tokensItems vs ++ ·)
  | [], _, rest, _ => (Option.map_id').symm
  | v :: vs, level, rest, hrest => by
    have htext : writeItems l level (v :: vs) ++ rest =
        ',' :: (l.line level ++ (v.write l level ++ (writeItems l level vs ++ rest))) := by
      simp only [writeItems, List.cons_append, List.append_assoc]
    rw [htext, scan_punctuation rfl, scan_blanks (hl.line _),
      scan_write hl v _ _ (ends_writeItems l _ vs hrest), scan_writeItems hl vs _ _ hrest,
      Option.map_map, Option.map_map]
    refine congrArg (Option.map · _) (funext fun ts => ?_)
    simp [tokensItems]

theorem scan_writeMembers (hl : l.Blank) : ∀ (members : List (String × Json)) (level : Nat)
    (rest : List Char), Ends rest →
    scan (writeMembers l level members ++ rest) = (scan rest).map (tokensMembers members ++ ·)
  | [], _, rest, _ => (Option.map_id').symm
  | (k, v) :: members, level, rest, hrest => by
    have htext : writeMembers l level ((k, v) :: members) ++ rest =
        ',' :: (l.line level ++ (quote k ++ (':' :: (l.gap ++ (v.write l level ++
          (writeMembers l level members ++ rest)))))) := by
      simp only [writeMembers, List.cons_append, List.append_assoc]
    rw [htext, scan_punctuation rfl, scan_blanks (hl.line _), scan_quote, scan_punctuation rfl,
      scan_blanks hl.gap, scan_write hl v _ _ (ends_writeMembers l _ members hrest),
      scan_writeMembers hl members _ _ hrest]
    simp only [Option.map_map]
    refine congrArg (Option.map · _) (funext fun ts => ?_)
    simp [tokensMembers]

end

end Scanning

/-! ### Reading the tokens of a value -/

namespace Machine

theorem foldlM_of_step {m m' : Machine} {t : Token} (h : step m t = some m') (ts : List Token) :
    (t :: ts).foldlM step m = ts.foldlM step m' := by
  rw [List.foldlM_cons, h]
  rfl

theorem foldlM_of_run {m m' : Machine} {ts : List Token} (h : ts.foldlM step m = some m')
    (ts' : List Token) : (ts ++ ts').foldlM step m = ts'.foldlM step m' := by
  rw [List.foldlM_append, h]
  rfl

theorem step_token (n : Number) (stack : List Frame) :
    step ⟨stack, .value, none⟩ n.token = some (accept n.readBack stack) := by
  unfold Number.token Number.readBack
  cases Numeral.Parts.ofChars? n.text with
  | none => rfl
  | some p =>
    show begin stack (.number p.number) = some (accept (p.number.elim _ _) stack)
    cases p.number <;> rfl

/-- Where an array may end, a value may begin as well. -/
theorem foldlM_tokens_first (v : Json) (stack : List Frame) :
    v.tokens.foldlM step ⟨stack, .valueOrClose, none⟩ =
      v.tokens.foldlM step ⟨stack, .value, none⟩ := by
  have hfirst : ∃ t ts, v.tokens = t :: ts ∧ t ≠ .closeArray := by
    cases v with
    | number n =>
      refine ⟨n.token, [], rfl, ?_⟩
      unfold Number.token
      split <;> exact nofun
    | array items => cases items <;> exact ⟨_, _, rfl, nofun⟩
    | object members => cases members <;> exact ⟨_, _, rfl, nofun⟩
    | _ => exact ⟨_, _, rfl, nofun⟩
  obtain ⟨t, ts, htokens, hne⟩ := hfirst
  rw [htokens, List.foldlM_cons, List.foldlM_cons]
  refine congrArg (· >>= fun m => ts.foldlM step m) ?_
  exact if_neg hne

theorem objectOf_reverse (members : List (String × Json)) :
    objectOf (members.map fun (k, v) => (some k, v)).reverse = .object members := by
  have hall : (members.map fun (k, v) => (some k, v)).reverse.all (·.1.isSome) = true := by
    rw [List.all_reverse, List.all_map]
    exact List.all_eq_true.mpr fun _ _ => rfl
  rw [objectOf, if_pos hall, List.reverse_reverse, List.map_map]
  exact congrArg _ (List.map_id _)

mutual

theorem foldlM_tokens : ∀ (v : Json) (stack : List Frame),
    v.tokens.foldlM step ⟨stack, .value, none⟩ = some (accept v.readBack stack)
  | .null, _ => rfl
  | .bool _, _ => rfl
  | .number n, stack => by
    rw [tokens, List.foldlM_cons, step_token]
    rfl
  | .string _, _ => rfl
  | .unreadable, _ => rfl
  | .array [], _ => rfl
  | .array (v :: vs), stack => by
    have hopen : step ⟨stack, .value, none⟩ .openArray =
        some ⟨.array [] :: stack, .valueOrClose, none⟩ := rfl
    have hclose : ∀ done, step ⟨.array done :: stack, .after, none⟩ .closeArray =
        some (accept (.array done.reverse) stack) := fun _ => rfl
    have hfirst := foldlM_tokens v (.array [] :: stack)
    rw [← foldlM_tokens_first] at hfirst
    rw [tokens, foldlM_of_step hopen, List.append_assoc, foldlM_of_run hfirst,
      accept, foldlM_of_run (foldlM_tokensItems vs _ _), foldlM_of_step (hclose _),
      List.reverse_append, List.reverse_reverse]
    rfl
  | .object [], _ => rfl
  | .object ((k, v) :: members), stack => by
    have hopen : step ⟨stack, .value, none⟩ .openObject =
        some ⟨.object [] none :: stack, .keyOrClose, none⟩ := rfl
    have hkey : step ⟨.object [] none :: stack, .keyOrClose, none⟩ (.string (some k)) =
        some ⟨.object [] none :: stack, .colon (some k), none⟩ := rfl
    have hcolon : step ⟨.object [] none :: stack, .colon (some k), none⟩ .colon =
        some ⟨.object [] (some k) :: stack, .value, none⟩ := rfl
    have hclose : ∀ done, step ⟨.object done none :: stack, .after, none⟩ .closeObject =
        some (accept (objectOf done) stack) := fun _ => rfl
    have hmembers := objectOf_reverse ((k, v.readBack) :: readBackMembers members)
    rw [List.map_cons, List.reverse_cons] at hmembers
    rw [tokens, foldlM_of_step hopen, foldlM_of_step hkey, foldlM_of_step hcolon,
      List.append_assoc, foldlM_of_run (foldlM_tokens v _), accept,
      foldlM_of_run (foldlM_tokensMembers members _ _), foldlM_of_step (hclose _), hmembers]
    rfl

theorem foldlM_tokensItems : ∀ (vs : List Json) (done : List Json) (stack : List Frame),
    (tokensItems vs).foldlM step ⟨.array done :: stack, .after, none⟩ =
      some ⟨.array ((readBackItems vs).reverse ++ done) :: stack, .after, none⟩
  | [], _, _ => rfl
  | v :: vs, done, stack => by
    have hcomma : step ⟨.array done :: stack, .after, none⟩ .comma =
        some ⟨.array done :: stack, .value, none⟩ := rfl
    rw [tokensItems, foldlM_of_step hcomma, foldlM_of_run (foldlM_tokens v _), accept,
      foldlM_tokensItems vs, readBackItems, List.reverse_cons, List.append_assoc]
    rfl

theorem foldlM_tokensMembers : ∀ (members : List (String × Json))
    (done : List (Option String × Json)) (stack : List Frame),
    (tokensMembers members).foldlM step ⟨.object done none :: stack, .after, none⟩ =
      some ⟨.object (((readBackMembers members).map fun (k, v) => (some k, v)).reverse ++ done)
        none :: stack, .after, none⟩
  | [], _, _ => rfl
  | (k, v) :: members, done, stack => by
    have hcomma : step ⟨.object done none :: stack, .after, none⟩ .comma =
        some ⟨.object done none :: stack, .key, none⟩ := rfl
    have hkey : step ⟨.object done none :: stack, .key, none⟩ (.string (some k)) =
        some ⟨.object done none :: stack, .colon (some k), none⟩ := rfl
    have hcolon : step ⟨.object done none :: stack, .colon (some k), none⟩ .colon =
        some ⟨.object done (some k) :: stack, .value, none⟩ := rfl
    rw [tokensMembers, foldlM_of_step hcomma, foldlM_of_step hkey, foldlM_of_step hcolon,
      foldlM_of_run (foldlM_tokens v _), accept, foldlM_tokensMembers members, readBackMembers,
      List.map_cons, List.reverse_cons, List.append_assoc]
    rfl

end

end Machine

theorem ofTokens?_tokens (v : Json) : ofTokens? v.tokens = some v.readBack := by
  rw [ofTokens?, Machine.initial, Machine.foldlM_tokens]
  rfl

/-- **What is written is read back.** The text of every value, in every layout of blanks, is read as
that value with each number replaced by what its text stands for. -/
theorem parse?_write {l : Layout} (hl : l.Blank) (v : Json) :
    parse? (String.ofList (v.write l 0)) = some v.readBack := by
  have hscan := scan_write hl v 0 [] nofun
  rw [List.append_nil] at hscan
  rw [parse?, String.toList_ofList, hscan]
  show (Option.some (v.tokens ++ [])).bind ofTokens? = _
  rw [List.append_nil, Option.bind_some, ofTokens?_tokens]

end CodeAtlas.Json
