import NovelScript.Proofs.Completion
import NovelScript.Proofs.Placement

/-!
# Looking for faults of the indentation first or last

`Script.parse` looks for a fault of the indentation before it reads any statement,
`Script.parseLazily` meets such a fault where the statements reach it. Without such a fault the two
come to the same. With one, both refuse the script: no reader gets past the token at fault, and a
fault that is met before it lies before it.
-/

namespace NovelScript

/-- A fault that is met where `g` is the first fault of the indentation: it is `g` itself, or one of
a line that comes before. -/
def Fault.Forestalls (f g : Fault) : Prop :=
  (f.cause = g.cause ∧ f.spot.line = g.spot.line ∧ f.spot.column = g.spot.column ∧
    f.spot.offset = g.spot.offset) ∨
  ((f.cause.faultClass = .lexical ∨ f.cause.faultClass = .grammar) ∧
    ∃ m n : Int, f.spot.offset = some m ∧ g.spot.offset = some n ∧ m ≤ n)

theorem exists_mem_of_firstFault? {g : Fault} {ts : List LayoutToken} (h : firstFault? ts = some g) :
    ∃ u ∈ ts, ∃ cause, u.mark = .fault cause ∧ g = ⟨.layout cause, u.place.spot⟩ := by
  induction ts with
  | nil => exact nomatch h
  | cons t ts ih =>
    rw [firstFault?] at h
    split at h
    · next cause ht => exact ⟨t, List.mem_cons_self, cause, ht, (Option.some.inj h).symm⟩
    · obtain ⟨u, hu, hcause⟩ := ih h
      exact ⟨u, List.mem_cons_of_mem _ hu, hcause⟩

/-- The fault of a line lies before the token that the line precedes. -/
theorem Fault.LiesAhead.exists_offset_le {f : Fault} {content : List Char} {t u : LayoutToken}
    (h : f.LiesAhead (.ofContent content t.place))
    (ht : t.place.stop = t.place.start + content.length) (htu : t.Precedes u) :
    ∃ m : Int, f.spot.offset = some m ∧ m ≤ u.place.start := by
  obtain ⟨k, -, hk, -, hoffset⟩ := h.column
  have hk : k ≤ content.length := hk (Nat.zero_le _)
  have hstop := htu.stop
  exact ⟨_, hoffset, by change t.place.start + (k : Int) ≤ _; omega⟩

namespace Assembly

/-- An assembly that meets a fault of the indentation stops there or earlier. -/
theorem exists_finish_of_firstFault? {ts : List LayoutToken} {g : Fault} (a : Assembly)
    (h : firstFault? ts = some g) (hp : ts.Pairwise LayoutToken.Precedes)
    (hs : ∀ t ∈ ts, t.place.start ≤ t.place.stop)
    (ht : ∀ t ∈ textsOf ts, t.place.stop = t.place.start + t.value.length) :
    ∃ f, a.finish ts = .error f ∧ f.Forestalls g := by
  induction ts generalizing a with
  | nil => exact nomatch h
  | cons t ts ih =>
    by_cases htag : t.tag = .error
    · obtain ⟨cause, hm⟩ := LayoutToken.exists_fault htag
      rw [firstFault?, hm] at h
      cases h
      refine ⟨⟨.layout cause, t.place.wideSpot⟩, ?_, .inl ⟨rfl, rfl, rfl, rfl⟩⟩
      simp [finish, move, hm]
    · have hrest : firstFault? ts = some g := by
        rw [firstFault?] at h
        split at h
        · next cause hm => simp [LayoutToken.tag, hm, LayoutMark.tag] at htag
        · exact h
      obtain ⟨u, hu, cause, hum, rfl⟩ := exists_mem_of_firstFault? hrest
      obtain ⟨hpt, hp⟩ := List.pairwise_cons.mp hp
      have htu := hpt u hu
      have ho := outcome_move a t
      rw [finish]
      generalize a.move t = m at ho ⊢
      cases ho with
      | @on b hb =>
        exact ih b hrest hp (fun v hv => hs v (List.mem_cons_of_mem _ hv)) fun v hv =>
          ht v (((List.sublist_cons_self t ts).filter _).subset hv)
      | ended _ _ _ hm => exact absurd hm htu.unended
      | endedAfter _ _ hm => exact absurd hm htu.unended
      | astray hm => simp [LayoutToken.tag, hm, LayoutMark.tag] at htag
      | refuse what =>
        -- The token at fault is still to come, so the script has not ended.
        have hended : Progress.isEnded { rest := t :: ts } = false := by
          cases he : Progress.isEnded { rest := t :: ts } with
          | false => rfl
          | true =>
            have := firstFault?_of_isEnded he
            rw [h] at this
            cases this
        refine ⟨_, rfl, .inr ⟨?_, t.place.start, u.place.start, ?_, rfl, ?_⟩⟩
        · rw [Progress.refusal, hended]
          exact .inr rfl
        · rfl
        · exact Int.le_trans (hs t List.mem_cons_self) htu.stop
      | @fault content f hm hf =>
        have hlength : t.place.stop = t.place.start + content.length := by
          have hv := ht t (by simp [textsOf, LayoutToken.tag, hm, LayoutMark.tag])
          rwa [LayoutToken.value, hm] at hv
        obtain ⟨k, hk, hle⟩ := hf.exists_offset_le hlength htu
        exact ⟨f, rfl, .inr ⟨hf.faultClass, k, u.place.start, hk, rfl, hle⟩⟩

end Assembly

namespace Script

variable {rules : LayoutRules} {text : List Char} {tokens : List LayoutToken} (file : Option Path)

/-- What is read from a layout when no fault of the indentation is looked for. -/
theorem parseLazily_of_layout (h : layout rules text = .ok tokens) (source : Option (List Char)) :
    parseLazily rules text source file = match Assembly.initial.finish tokens with
      | .ok ss => .ok ⟨ss, file, Parser.extentOf ss⟩
      | .error f => .error (.refused (f.report file source)) := by
  rw [parseLazily, h]
  simp only [treeOf, Assembly.statementsOf_eq]
  cases Assembly.initial.finish tokens <;> rfl

theorem parse_of_layout (h : layout rules text = .ok tokens) (hf : firstFault? tokens = none) :
    parse rules text file = parseLazily rules text (some text) file := by
  rw [parseLazily_of_layout file h]
  cases ha : Assembly.initial.finish tokens with
  | ok ss => exact parse_of_finish file h hf ha
  | error f => exact parse_of_refused file h hf ha

/-- Without a fault of the indentation both ways to read a script come to the same. With one, both
refuse the script: `parse` for the first such fault `g`, and `parseLazily` for that fault as well or
for one of the words or the grammar of a line, which starts no later than `g`. -/
theorem parse_agrees_with_parseLazily (rules : LayoutRules) (text : List Char)
    (file : Option Path) :
    match layout rules text with
    | .error b => parse rules text file = .error (.breakdown b) ∧
        parseLazily rules text (some text) file = .error (.breakdown b)
    | .ok tokens =>
      match firstFault? tokens with
      | none => parse rules text file = parseLazily rules text (some text) file
      | some g => g.cause.faultClass = .layout ∧
          parse rules text file = .error (.refused (g.report file (some text))) ∧
          ∃ f : Fault, parseLazily rules text (some text) file =
              .error (.refused (f.report file (some text))) ∧ f.Forestalls g := by
  cases hl : layout rules text with
  | error b => exact ⟨parse_of_breakdown file hl, by rw [parseLazily, hl]⟩
  | ok tokens =>
    simp only
    cases hf : firstFault? tokens with
    | none => exact parse_of_layout file hl hf
    | some g =>
      have htexts : ∀ t ∈ textsOf tokens, t.place.stop = t.place.start + t.value.length := by
        intro t ht
        rw [(shaped_of_layout hl).texts] at ht
        obtain ⟨l, -, rfl⟩ := List.mem_map.mp ht
        rfl
      obtain ⟨f, hfin, hg⟩ := Assembly.initial.exists_finish_of_firstFault? hf
        (pairwise_precedes_of_layout hl) (start_le_stop_of_layout hl) htexts
      refine ⟨faultClass_of_firstFault? hf, parse_of_fault file hl hf, f, ?_, hg⟩
      rw [parseLazily_of_layout file hl, hfin]

end Script

end NovelScript
