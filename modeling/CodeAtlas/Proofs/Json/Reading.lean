import CodeAtlas.Json.Reader
import CodeAtlas.Proofs.Json.Range

/-!
# Numbers of a text

Whatever a text is read as, each number in it is an integer of 64 bits or a finite number: a token of
a number beyond that is unreadable, and no number is made in any other way.

* `InRange`               a value whose numbers are all in range;
* `Token.scan_inRange`    every token of a text is in range;
* `parse?_inRange`        and so is the value.
-/

namespace CodeAtlas.Json

/-- a value whose numbers are all in range -/
inductive InRange : Json → Prop
  | null : InRange .null
  | bool (b : Bool) : InRange (.bool b)
  | number {n : Number} (h : n.InRange) : InRange (.number n)
  | string (s : String) : InRange (.string s)
  | array {items : List Json} (h : ∀ v ∈ items, InRange v) : InRange (.array items)
  | object {members : List (String × Json)} (h : ∀ m ∈ members, InRange m.2) :
      InRange (.object members)
  | unreadable : InRange .unreadable

/-! ### Tokens -/

namespace Token

variable {mode next : Mode} {tokens done : List Token} {cs : List Char} {c : Char} {t : Token}

/-- a token that is no number, or a number in range -/
def InRange (t : Token) : Prop := ∀ n, t = .number (some n) → n.InRange

theorem ofNumeral_inRange (h : ofNumeral cs = some t) : t.InRange := by
  obtain ⟨p, -, rfl⟩ := Option.map_eq_some_iff.mp h
  exact fun n hn => Numeral.Parts.inRange_of_number (Token.number.inj hn)

theorem ofWord_inRange (h : ofWord cs = some t) : t.InRange := by
  unfold ofWord at h
  dsimp only at h
  repeat' split at h
  all_goals cases h
  all_goals
    intro n hn
    cases hn

theorem inRange_nil : ∀ t ∈ ([] : List Token), t.InRange := fun _ ht => absurd ht List.not_mem_nil

theorem start_inRange (h : start c = some (tokens, next)) : ∀ t ∈ tokens, t.InRange := by
  unfold start at h
  repeat' split at h
  all_goals cases h
  all_goals first
    | exact inRange_nil
    | refine List.forall_mem_singleton.mpr fun n hn => ?_
      cases hn

/-- a token that ends with the character before the one that starts the next -/
theorem ended_inRange {ended : Option Token}
    (hended : ∀ {t}, ended = some t → t.InRange)
    (h : (do
      let token ← ended
      let (tokens, mode) ← start c
      return (token :: tokens, mode)) = some (tokens, next)) : ∀ t ∈ tokens, t.InRange := by
  obtain ⟨token, htoken, h⟩ := Option.bind_eq_some_iff.mp h
  obtain ⟨⟨rest, mode⟩, hstart, h⟩ := Option.bind_eq_some_iff.mp h
  cases h
  exact List.forall_mem_cons.mpr ⟨hended htoken, start_inRange hstart⟩

theorem step_inRange (h : step mode c = some (tokens, next)) : ∀ t ∈ tokens, t.InRange := by
  unfold step at h
  split at h
  · exact start_inRange h
  · split at h
    · cases h
      exact inRange_nil
    · exact ended_inRange ofNumeral_inRange h
  · split at h
    · cases h
      exact inRange_nil
    · exact ended_inRange ofWord_inRange h
  · split at h
    · cases h
      refine List.forall_mem_singleton.mpr fun n hn => ?_
      cases hn
    · repeat' split at h
      all_goals cases h
      all_goals exact inRange_nil
  · split at h
    · cases h
      exact inRange_nil
    · obtain ⟨_, -, h⟩ := Option.map_eq_some_iff.mp h
      cases h
      exact inRange_nil
  · obtain ⟨_, -, h⟩ := Option.bind_eq_some_iff.mp h
    cases h
    exact inRange_nil

theorem finish_inRange (h : finish mode = some tokens) : ∀ t ∈ tokens, t.InRange := by
  unfold finish at h
  split at h
  · cases h
    exact inRange_nil
  · obtain ⟨t, ht, rfl⟩ := Option.map_eq_some_iff.mp h
    exact List.forall_mem_singleton.mpr (ofNumeral_inRange ht)
  · obtain ⟨t, ht, rfl⟩ := Option.map_eq_some_iff.mp h
    exact List.forall_mem_singleton.mpr (ofWord_inRange ht)
  · cases h

theorem scanFrom_inRange (hdone : ∀ t ∈ done, t.InRange) (h : scanFrom mode done cs = some tokens) :
    ∀ t ∈ tokens, t.InRange := by
  induction cs generalizing mode done with
  | nil =>
    obtain ⟨last, hlast, rfl⟩ := Option.map_eq_some_iff.mp h
    refine List.forall_mem_append.mpr ⟨fun t ht => ?_, finish_inRange hlast⟩
    exact hdone t (List.mem_reverse.mp ht)
  | cons c cs ih =>
    unfold scanFrom at h
    split at h
    · rename_i hstep
      refine ih (List.forall_mem_append.mpr ⟨fun t ht => ?_, hdone⟩) h
      exact step_inRange hstep t (List.mem_reverse.mp ht)
    · cases h

theorem scan_inRange (h : scan cs = some tokens) : ∀ t ∈ tokens, t.InRange :=
  scanFrom_inRange inRange_nil h

end Token

/-! ### Values -/

namespace Machine

variable {m m' : Machine} {stack : List Frame} {t : Token} {v : Json}

/-- an open container whose numbers so far are in range -/
def FrameInRange : Frame → Prop
  | .array done => ∀ v ∈ done, v.InRange
  | .object done _ => ∀ m ∈ done, m.2.InRange

structure InRange (m : Machine) : Prop where
  stack : ∀ f ∈ m.stack, FrameInRange f
  result : ∀ v ∈ m.result, v.InRange

theorem inRange_open {expect : Expect} (h : ∀ f ∈ stack, FrameInRange f) :
    InRange ⟨stack, expect, none⟩ :=
  ⟨h, fun _ hv => absurd hv (Option.not_mem_none _)⟩

theorem accept_inRange (hv : v.InRange) (h : ∀ f ∈ stack, FrameInRange f) :
    (accept v stack).InRange := by
  cases stack with
  | nil => exact ⟨h, fun v' hv' => Option.some.inj hv' ▸ hv⟩
  | cons f rest =>
    obtain ⟨hf, hrest⟩ := List.forall_mem_cons.mp h
    cases f with
    | array done =>
      exact inRange_open (List.forall_mem_cons.mpr ⟨List.forall_mem_cons.mpr ⟨hv, hf⟩, hrest⟩)
    | object done key =>
      exact inRange_open (List.forall_mem_cons.mpr ⟨List.forall_mem_cons.mpr ⟨hv, hf⟩, hrest⟩)

theorem objectOf_inRange {done : List (Option String × Json)} (h : ∀ m ∈ done, m.2.InRange) :
    (objectOf done).InRange := by
  unfold objectOf
  split
  · refine .object fun m hm => ?_
    obtain ⟨m', hm', rfl⟩ := List.mem_map.mp hm
    exact h m' (List.mem_reverse.mp hm')
  · exact .unreadable

theorem begin_inRange (ht : t.InRange) (h : ∀ f ∈ stack, FrameInRange f)
    (hbegin : begin stack t = some m) : m.InRange := by
  unfold begin at hbegin
  split at hbegin <;> cases hbegin
  · exact inRange_open (List.forall_mem_cons.mpr ⟨fun _ hv => absurd hv List.not_mem_nil, h⟩)
  · exact inRange_open (List.forall_mem_cons.mpr ⟨fun _ hv => absurd hv List.not_mem_nil, h⟩)
  · exact accept_inRange .null h
  · exact accept_inRange (.bool _) h
  · exact accept_inRange (.number (ht _ rfl)) h
  · exact accept_inRange (.string _) h
  · exact accept_inRange .unreadable h
  · exact accept_inRange .unreadable h

theorem close_inRange (h : ∀ f ∈ stack, FrameInRange f) (hclose : close stack t = some m) :
    m.InRange := by
  unfold close at hclose
  split at hclose
  · obtain ⟨hdone, hrest⟩ := List.forall_mem_cons.mp h
    cases hclose
    exact accept_inRange (.array fun v hv => hdone v (List.mem_reverse.mp hv)) hrest
  · obtain ⟨hdone, hrest⟩ := List.forall_mem_cons.mp h
    cases hclose
    exact accept_inRange (objectOf_inRange hdone) hrest
  · cases hclose

theorem step_inRange (hm : m.InRange) (ht : t.InRange) (h : step m t = some m') : m'.InRange := by
  obtain ⟨hstack, hresult⟩ := hm
  unfold step at h
  split at h
  · exact begin_inRange ht hstack h
  · split at h
    · exact close_inRange hstack h
    · exact begin_inRange ht hstack h
  · split at h <;> cases h
    exact ⟨hstack, hresult⟩
  · split at h
    · cases h
      exact ⟨hstack, hresult⟩
    · exact close_inRange hstack h
    · cases h
  · split at h <;> cases h
    rename_i hopen
    rw [hopen] at hstack
    obtain ⟨hdone, hrest⟩ := List.forall_mem_cons.mp hstack
    exact inRange_open (List.forall_mem_cons.mpr ⟨hdone, hrest⟩)
  · split at h
    · cases h
      exact ⟨hstack, hresult⟩
    · cases h
      exact ⟨hstack, hresult⟩
    · cases h
    · exact close_inRange hstack h

theorem foldlM_inRange {tokens : List Token} (ht : ∀ t ∈ tokens, t.InRange) (hm : m.InRange)
    (h : tokens.foldlM step m = some m') : m'.InRange := by
  induction tokens generalizing m with
  | nil => exact Option.some.inj h ▸ hm
  | cons t tokens ih =>
    obtain ⟨ht, htokens⟩ := List.forall_mem_cons.mp ht
    obtain ⟨next, hnext, h⟩ := Option.bind_eq_some_iff.mp h
    exact ih htokens (step_inRange hm ht hnext) h

end Machine

theorem parse?_inRange {text : String} {v : Json} (h : parse? text = some v) : v.InRange := by
  obtain ⟨tokens, htokens, h⟩ := Option.bind_eq_some_iff.mp h
  unfold ofTokens? at h
  split at h
  · rename_i m hm
    refine (Machine.foldlM_inRange (Token.scan_inRange htokens) ?_ hm).result v h
    exact Machine.inRange_open fun _ hf => absurd hf List.not_mem_nil
  · cases h

end CodeAtlas.Json
