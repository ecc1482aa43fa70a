import NovelScript.Layout.Scanner
import NovelScript.Proofs.Breakdowns
import NovelScript.Proofs.Joined

/-!
# Openings and closings balance

Whatever a scanner is asked for, and in whatever order, its open blocks stay a stack on the
outermost one, and at every point of what it has emitted there are at least as many openings as
closings. The surplus of openings is the number of blocks that are open within the outermost one; it
is zero again after the end of a text.
-/

namespace NovelScript

/-- How many of the tokens have the tag. -/
def countTag (tag : Tag) (ts : List LayoutToken) : Nat := ts.countP (·.tag = tag)

theorem countTag_append (tag : Tag) (ts us : List LayoutToken) :
    countTag tag (ts ++ us) = countTag tag ts + countTag tag us := List.countP_append

theorem countTag_eq_zero {tag : Tag} {ts : List LayoutToken} (h : ∀ t ∈ ts, t.tag ≠ tag) :
    countTag tag ts = 0 := List.countP_eq_zero.mpr (by simpa using h)

theorem countTag_map_dedent {α : Type} (place : Place) (xs : List α) :
    countTag .dedent (xs.map fun _ => ⟨.dedent, place⟩) = xs.length := by
  rw [countTag, List.countP_map,
    List.countP_eq_length.mpr (by simp [LayoutToken.tag, LayoutMark.tag])]

theorem countTag_map_dedent_of_ne {α : Type} {tag : Tag} (h : tag ≠ .dedent) (place : Place)
    (xs : List α) : countTag tag (xs.map fun _ => ⟨.dedent, place⟩) = 0 :=
  countTag_eq_zero fun t ht => by
    obtain ⟨x, -, rfl⟩ := List.mem_map.mp ht
    exact h.symm

theorem riseOf_eq_count (ts : List LayoutToken) :
    riseOf ts = countTag .indent ts - countTag .dedent ts := by
  induction ts with
  | nil => rfl
  | cons t ts ih =>
    obtain ⟨mark, place⟩ := t
    rw [riseOf_cons, ih, countTag, countTag, countTag, countTag, List.countP_cons, List.countP_cons]
    cases mark <;> simp [LayoutMark.rise, LayoutToken.tag, LayoutMark.tag] <;> omega

theorem neg_length_le_riseOf (ts : List LayoutToken) : -(ts.length : Int) ≤ riseOf ts := by
  induction ts with
  | nil => simp
  | cons t ts ih =>
    have hrise : -1 ≤ t.mark.rise := by cases t.mark <;> simp [LayoutMark.rise]
    rw [riseOf_cons, List.length_cons]
    omega

theorem riseOf_nonneg {ts : List LayoutToken} (h : ∀ t ∈ ts, 0 ≤ t.mark.rise) :
    0 ≤ riseOf ts := by
  induction ts with
  | nil => simp
  | cons t ts ih =>
    obtain ⟨ht, hrest⟩ := List.forall_mem_cons.mp h
    have hlater := ih hrest
    rw [riseOf_cons]
    omega

/-- Among tokens that find `n` blocks open, no point has all of them closed. -/
def StaysOpen (n : Int) (ts : List LayoutToken) : Prop :=
  ∀ front, front <+: ts → 0 < n + riseOf front

namespace StaysOpen

variable {n : Int} {ts us : List LayoutToken}

theorem of_length_lt (h : ts.length < n) : StaysOpen n ts := fun front hfront => by
  have hlength := hfront.length_le
  have hrise := neg_length_le_riseOf front
  omega

theorem append (h : StaysOpen n ts) (h' : StaysOpen (n + riseOf ts) us) :
    StaysOpen n (ts ++ us) := by
  intro front hfront
  obtain hts | ⟨rest, rfl⟩ := List.prefix_or_prefix_of_prefix hfront (List.prefix_append ts us)
  · exact h front hts
  · have hrest := h' rest ((List.prefix_append_right_inj ts).mp hfront)
    rw [riseOf_append]
    omega

/-- Tokens that close nothing. -/
theorem of_flat (hn : 0 < n) (h : ∀ t ∈ ts, 0 ≤ t.mark.rise) : StaysOpen n ts := by
  intro front hfront
  have hrise := riseOf_nonneg fun t ht => h t (hfront.subset ht)
  omega

end StaysOpen

/-- Where one block is open, this says that openings cover closings. -/
theorem staysOpen_one_iff {ts : List LayoutToken} : StaysOpen 1 ts ↔
    ∀ front, front <+: ts → countTag .dedent front ≤ countTag .indent front :=
  forall₂_congr fun front _ => by
    rw [riseOf_eq_count]
    omega

namespace Offside

variable {rules : LayoutRules} {s : Offside} {w : Int} {place : Place} {e : Emission}

/-- A turn closes fewer blocks than there are. -/
theorem Turn.staysOpen (ht : Turn s w place e) : StaysOpen s.widths.length e.tokens := by
  have hdedents : ∀ {closed rest : List Int} {outer : Int}, s.widths = closed ++ outer :: rest →
      StaysOpen s.widths.length (closed.map fun _ => ⟨.dedent, place⟩) := by
    intro closed rest outer h
    refine .of_length_lt ?_
    rw [h, List.length_map, List.length_append, List.length_cons]
    omega
  cases ht with
  | deeper h hw => exact .of_flat (by simp [h]) (by simp [LayoutMark.rise])
  | level h =>
    refine .of_flat (by simp [h]) ?_
    cases s.started <;> simp [LayoutMark.rise]
  | shallower hc h hw => exact hdedents h
  | @stray closed rest outer hc h hw ho hd =>
    refine (hdedents h).append (.of_flat ?_ (by simp [LayoutMark.rise]))
    rw [riseOf_map_dedent, h, List.length_append, List.length_cons]
    omega
  | untold hc h hw ho hd => exact hdedents h

theorem Stacked.staysOpen_line (h : 1 ≤ rules.tabWidth) (hs : s.Stacked) (l : ContentLine) :
    StaysOpen s.widths.length (s.line rules l).tokens := by
  obtain ⟨w, e, -, -, ht, he⟩ := hs.line_eq h l
  have hpos := hs.length_pos
  have hmixed : StaysOpen s.widths.length (mixedFaults rules l) :=
    .of_flat (by omega) fun t ht => by simp [mark_of_mem_mixedFaults ht, LayoutMark.rise]
  have hturn : StaysOpen s.widths.length (mixedFaults rules l ++ e.tokens) :=
    hmixed.append (by rw [riseOf_mixedFaults, Int.add_zero]; exact ht.staysOpen)
  rw [he]
  cases hb : e.breakdown with
  | some b => rwa [Emission.andThen_of_some (e := e.after _) hb]
  | none =>
    rw [Emission.andThen_of_none (e := e.after _) hb]
    exact hturn.append (.of_flat (hturn _ List.prefix_rfl) (by simp [LayoutMark.rise]))

/-- What an emission in the state `s` does to the blocks. -/
structure Balances (s : Offside) (e : Emission) : Prop where
  stacked : e.state.Stacked
  rise : riseOf e.tokens + s.widths.length = e.state.widths.length
  staysOpen : StaysOpen s.widths.length e.tokens

theorem Stacked.balances_silent (hs : s.Stacked) (started : Bool) (b : Option Breakdown) :
    s.Balances ⟨[], ⟨s.widths, started⟩, b⟩ :=
  ⟨⟨hs.falling, hs.base⟩, Int.zero_add _, .of_length_lt (Int.natCast_pos.mpr hs.length_pos)⟩

theorem Balances.andThen {next : Offside → Emission} (he : s.Balances e)
    (hn : e.state.Balances (next e.state)) : s.Balances (e.andThen next) := by
  cases hb : e.breakdown with
  | some b => rwa [Emission.andThen_of_some hb]
  | none =>
    rw [Emission.andThen_of_none hb]
    have hrise := he.rise
    have hlater := hn.rise
    refine ⟨hn.stacked, ?_, he.staysOpen.append ?_⟩
    · rw [Emission.after_tokens, riseOf_append, Emission.after_state]
      omega
    · rw [show (s.widths.length : Int) + riseOf e.tokens = e.state.widths.length by omega]
      exact hn.staysOpen

theorem Stacked.balances_lines (h : 1 ≤ rules.tabWidth) (hs : s.Stacked) (ls : List ContentLine) :
    s.Balances (s.lines rules ls) := by
  induction ls generalizing s with
  | nil => exact hs.balances_silent _ _
  | cons l ls ih =>
    have hl := hs.keeps_line h l
    exact Balances.andThen ⟨hl.stacked, hl.rise, hs.staysOpen_line h l⟩ (ih hl.stacked)

/-- The end of a text leaves the outermost block. -/
theorem Stacked.widths_finish (hs : s.Stacked) (text : List Char) (lastLine : Int) :
    (s.finish text lastLine).state.widths = [0] := by
  obtain ⟨front, hfront⟩ := List.getLast?_eq_some_iff.mp hs.base
  have hlength : s.widths.length - 1 = front.length := by simp [hfront]
  change s.widths.drop (s.widths.length - 1) = [0]
  rw [hlength, hfront, List.drop_left]

theorem Stacked.rise_closing (hs : s.Stacked) (place : Place) :
    riseOf (s.closing place) + s.widths.length = 1 := by
  have hpos := hs.length_pos
  unfold closing
  split
  · next hlen =>
    have hmap := riseOf_map_dedent place (List.replicate (s.widths.length - 1) ())
    rw [List.map_replicate, List.length_replicate] at hmap
    rw [hmap]
    omega
  · next hlen => cases s.started <;> simp [LayoutMark.rise] <;> omega

theorem Stacked.staysOpen_closing (hs : s.Stacked) (place : Place) :
    StaysOpen s.widths.length (s.closing place) := by
  have hpos := hs.length_pos
  unfold closing
  split
  · next hlen =>
    refine .of_length_lt ?_
    rw [List.length_replicate]
    omega
  · next hlen =>
    refine .of_flat (by omega) ?_
    cases s.started <;> simp [LayoutMark.rise]

theorem Stacked.balances_finish (hs : s.Stacked) (text : List Char) (lastLine : Int) :
    s.Balances (s.finish text lastLine) := by
  have hwidths := hs.widths_finish text lastLine
  obtain ⟨place, htokens⟩ : ∃ place,
      (s.finish text lastLine).tokens = s.closing place ++ [⟨.eof, place⟩] := ⟨_, rfl⟩
  have hrise := hs.rise_closing place
  refine ⟨⟨by rw [hwidths]; simp, by rw [hwidths]; rfl⟩, ?_, ?_⟩
  · rw [htokens, hwidths, riseOf_append, riseOf_cons, riseOf_nil]
    simp only [LayoutMark.rise, List.length_singleton]
    omega
  · rw [htokens]
    exact (hs.staysOpen_closing place).append (.of_flat (by omega) (by simp [LayoutMark.rise]))

end Offside

namespace Scanner

open Offside

variable {rules : LayoutRules} {text : List Char} {s : Offside} {c : Call}

/-- The width of a line that is related to the open blocks is not negative. -/
def Call.Proper : Call → Prop
  | indentTo w _ => 0 ≤ w
  | _ => True

/-- The call ends the text. -/
def Call.Ends : Call → Prop
  | finish _ | scan => True
  | _ => False

/-- The call meets a line that closes a block, lies at the width of no open one and is too wide to
be told. -/
def Call.Untellable (rules : LayoutRules) (text : List Char) (s : Offside) : Call → Prop
  | indentTo w _ => s.Untellable w
  | scan => ∃ before l after w, contentLines text = before ++ l :: after ∧
      (s.lines rules before).breakdown = none ∧ rules.width l.indent = .ok w ∧
      (s.lines rules before).state.Untellable w
  | _ => False

theorem Call.balances (h : 1 ≤ rules.tabWidth) (hs : s.Stacked) (hc : c.Proper) :
    s.Balances (c.emission rules text s) := by
  cases c with
  | measure indent =>
    rw [Call.emission]
    split <;> exact hs.balances_silent _ _
  | indentTo w place =>
    have ht := hs.turn hc place
    exact ⟨ht.stacked hs, ht.rise, ht.staysOpen⟩
  | setStarted started => exact hs.balances_silent _ _
  | finish lastLine => exact hs.balances_finish text lastLine
  | scan =>
    have hlines := hs.balances_lines h (contentLines text)
    exact hlines.andThen (hlines.stacked.balances_finish _ _)

theorem Call.breakdown_eq_some (h : 1 ≤ rules.tabWidth) (hs : s.Stacked) (hc : c.Proper)
    (b : Breakdown) : (c.emission rules text s).breakdown = some b ↔
      b = .longWidth ∧ c.Untellable rules text s := by
  cases c with
  | measure indent =>
    obtain ⟨w, hw, -⟩ := rules.exists_width h indent
    simp [Call.emission, LayoutRules.measure, hw, Except.map, Call.Untellable]
  | indentTo w place => exact hs.breakdown_indentTo hc place b
  | setStarted started => simp [Call.emission, Call.Untellable]
  | finish lastLine => simp [Call.emission, Call.Untellable, finish_breakdown]
  | scan =>
    have hfinish : (s.scan rules text).breakdown = (s.lines rules (contentLines text)).breakdown :=
      Emission.andThen_breakdown_eq fun _ => rfl
    rw [Call.emission, hfinish]
    exact hs.breakdown_lines h _ b

theorem Call.Ends.widths (h : 1 ≤ rules.tabWidth) (hs : s.Stacked) (hc : c.Ends)
    (hb : (c.emission rules text s).breakdown = none) :
    (c.emission rules text s).state.widths = [0] := by
  cases c with
  | finish lastLine => exact hs.widths_finish text lastLine
  | scan =>
    have hlines := hs.balances_lines h (contentLines text)
    have hnone := (Emission.andThen_breakdown.mp hb).1
    rw [Call.emission, Offside.scan, Emission.andThen_of_none hnone]
    exact hlines.stacked.widths_finish text (Text.lines text).length
  | _ => exact hc.elim

/-- The open blocks are a stack on the outermost one, and openings outnumber closings everywhere by
the blocks that are open. -/
structure Sound (s : Scanner) : Prop where
  stacked : s.state.Stacked
  covered : ∀ front, front <+: s.tokens → countTag .dedent front ≤ countTag .indent front
  surplus : countTag .indent s.tokens = countTag .dedent s.tokens + (s.state.widths.length - 1)

theorem sound_new : Sound {} where
  stacked := stacked_initial
  covered := fun front hfront => by rw [List.prefix_nil.mp hfront]; exact Nat.le_refl _
  surplus := rfl

theorem Sound.call {s : Scanner} (h : 1 ≤ rules.tabWidth) (hs : s.Sound) (hc : c.Proper) :
    (s.call rules text c).Sound := by
  have hbalances : s.state.Balances (c.emission rules text s.state) := c.balances h hs.stacked hc
  have hpos := hs.stacked.length_pos
  have hpos' := hbalances.stacked.length_pos
  have hrise := hbalances.rise
  have hsurplus := hs.surplus
  refine ⟨hbalances.stacked, staysOpen_one_iff.mp ?_, ?_⟩
  · refine (staysOpen_one_iff.mpr hs.covered).append ?_
    rw [show 1 + riseOf s.tokens = s.state.widths.length by rw [riseOf_eq_count]; omega]
    exact hbalances.staysOpen
  · have htokens := riseOf_eq_count (s.call rules text c).tokens
    have hcall : (s.call rules text c).tokens =
        s.tokens ++ (c.emission rules text s.state).tokens := rfl
    rw [hcall, riseOf_append, riseOf_eq_count s.tokens, ← hcall] at htokens
    have hstate : (s.call rules text c).state = (c.emission rules text s.state).state := rfl
    rw [hstate]
    omega

theorem sound_after (h : 1 ≤ rules.tabWidth) {calls : List Call} (hcalls : ∀ c ∈ calls, c.Proper) :
    (after rules text calls).Sound := by
  have hfold : ∀ s : Scanner, s.Sound → (calls.foldl (call rules text) s).Sound := by
    induction calls with
    | nil => exact fun s hs => hs
    | cons c calls ih =>
      obtain ⟨hc, hrest⟩ := List.forall_mem_cons.mp hcalls
      exact fun s hs => ih hrest _ (hs.call h hc)
  exact hfold _ sound_new

/-- A scanner stays sound whatever it is asked for, a call breaks down only at a line that is too
wide to be told, and the end of a text closes every block. -/
theorem sound_after_calls (rules : LayoutRules) (h : 1 ≤ rules.tabWidth) (text : List Char)
    (calls : List Call) (hcalls : ∀ c ∈ calls, c.Proper) :
    (∀ front, front <+: calls → (after rules text front).Sound) ∧
    ∀ front c later, calls = front ++ c :: later →
      (∀ b, (c.emission rules text (after rules text front).state).breakdown = some b ↔
        b = .longWidth ∧ c.Untellable rules text (after rules text front).state) ∧
      (c.Ends → (c.emission rules text (after rules text front).state).breakdown = none →
        (after rules text (front ++ [c])).state.widths = [0] ∧
        countTag .indent (after rules text (front ++ [c])).tokens =
          countTag .dedent (after rules text (front ++ [c])).tokens) := by
  have hsound : ∀ front, front <+: calls → (after rules text front).Sound := fun front hfront =>
    sound_after h fun c hc => hcalls c (hfront.subset hc)
  refine ⟨hsound, fun front c later hsplit => ?_⟩
  have hc : c.Proper := hcalls c (by simp [hsplit])
  have hfront := (hsound front ⟨_, hsplit.symm⟩).stacked
  refine ⟨fun b => c.breakdown_eq_some h hfront hc b, fun hends hb => ?_⟩
  have hdone := hsound (front ++ [c]) ⟨later, by simp [hsplit]⟩
  have hstate : (after rules text (front ++ [c])).state =
      (c.emission rules text (after rules text front).state).state := by
    rw [after, List.foldl_append]
    rfl
  have hwidths : (after rules text (front ++ [c])).state.widths = [0] := by
    rw [hstate]
    exact hends.widths h hfront hb
  have hsurplus := hdone.surplus
  rw [hwidths] at hsurplus
  exact ⟨hwidths, hsurplus⟩

/-- Calls in no sensible order: one line that strays, a whole text, and its end once more. -/
def unorderly : List Call :=
  [.measure " \t".toList, .indentTo 8 ⟨1, 9, 8, 8⟩, .indentTo 4 ⟨2, 5, 14, 14⟩, .setStarted true,
    .scan, .finish 3, .indentTo 2 ⟨9, 3, 2, 2⟩]

theorem sound_after_unorderly : ({} : LayoutRules).tabWidth = 4 ∧ (∀ c ∈ unorderly, c.Proper) ∧
    (after {} "a\n  b\n".toList unorderly).Sound ∧
    (after {} "a\n  b\n".toList unorderly).state.widths = [2, 0] := by
  have hproper : ∀ c ∈ unorderly, c.Proper := by simp [unorderly, Call.Proper]
  exact ⟨rfl, hproper,
    (sound_after_calls {} (by decide) "a\n  b\n".toList unorderly hproper).1 _ List.prefix_rfl,
    by decide +kernel⟩

end Scanner

end NovelScript
