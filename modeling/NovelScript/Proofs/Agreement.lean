import NovelScript.Proofs.Assembly

/-!
# The recursive parser and the assembly agree

The parser reads the blocks of a statement by recursion, an assembly keeps them on a stack. Both
come to the same statements or to the same fault on every layout. `Runs` states this for a part of
the parser, as long as that part lasts, and is closed under sequence and repetition.
-/

namespace NovelScript

open NovelScript.Parser

namespace Assembly

variable {a b : Assembly} {p : Progress} {t : LayoutToken} {ts : List LayoutToken}

theorem move_of_ne (h : t.tag ≠ .error) : a.move t = a.take t := by
  unfold LayoutToken.tag at h
  cases hm : t.mark <;> simp_all [move, LayoutMark.tag]

theorem finish_of_on (h : a.move t = .on b) : a.finish (t :: ts) = b.finish ts := by
  simp [finish, h]

theorem finish_of_refuse {what : String} (h : a.move p.next = .refuse what) :
    a.finish p.rest = .error (p.refusal what) := by
  obtain ⟨_ | ⟨t, ts⟩, c⟩ := p
  · rw [finish, show Progress.next { rest := [] } = Progress.next ⟨[], c⟩ from rfl, h]
    rfl
  · rw [finish, show a.move t = .refuse what from h]
    rfl

theorem finish_of_fault {f : Fault} (h : a.move p.next = .fault f) :
    a.finish p.rest = .error f := by
  obtain ⟨_ | ⟨t, ts⟩, c⟩ := p
  · rw [finish, show Progress.next { rest := [] } = Progress.next ⟨[], c⟩ from rfl, h]
  · rw [finish, show a.move t = .fault f from h]

theorem finish_of_complete {ss : List Statement} (h : a.move p.next = .complete ss) :
    a.finish p.rest = .ok ss := by
  obtain ⟨_ | ⟨t, ts⟩, c⟩ := p
  · rw [finish, show Progress.next { rest := [] } = Progress.next ⟨[], c⟩ from rfl, h]
  · rw [finish, show a.move t = .complete ss from h]

/-- What an assembly does with a layout starts with what it does with the next token. -/
theorem finish_congr (h : a.move p.next = b.move p.next) : a.finish p.rest = b.finish p.rest := by
  obtain ⟨_ | ⟨t, ts⟩, c⟩ := p
  · rw [finish, finish, show Progress.next { rest := [] } = Progress.next ⟨[], c⟩ from rfl, h]
  · rw [finish, finish, show a.move t = b.move t from h]

end Assembly

/-- From `p` on the parser `m` does what the assembly `a` does: it fails if and as `a` fails, or
it comes to a result, which some assembly that goes on from there has reached as well. -/
def Runs {α : Type} (a : Assembly) (m : Parser α) (Q : α → Assembly → Progress → Prop)
    (p : Progress) : Prop :=
  match m p with
  | .ok x q => ∃ b, Q x b q ∧ a.finish p.rest = b.finish q.rest
  | .error f _ => a.finish p.rest = .error f

namespace Runs

variable {α β : Type} {a b : Assembly} {m : Parser α} {f : α → Parser β} {p : Progress}
  {Q Q' : α → Assembly → Progress → Prop} {R : β → Assembly → Progress → Prop}

theorem pure {x : α} (h : Q x a p) : Runs a (Pure.pure x) Q p := ⟨a, h, rfl⟩

theorem imp (h : Runs a m Q p) (hQ : ∀ x b q, Q x b q → Q' x b q) : Runs a m Q' p := by
  unfold Runs at h ⊢
  cases hm : m p with
  | ok x q =>
    rw [hm] at h
    obtain ⟨b, hb, he⟩ := h
    exact ⟨b, hQ x b q hb, he⟩
  | error e q =>
    rw [hm] at h
    exact h

theorem bind (h : Runs a m Q p) (hf : ∀ x b q, Q x b q → Runs b (f x) R q) :
    Runs a (m >>= f) R p := by
  unfold Runs at h ⊢
  rw [run_bind]
  cases hm : m p with
  | ok x q =>
    rw [hm] at h
    obtain ⟨b, hb, he⟩ := h
    have hr := hf x b q hb
    unfold Runs at hr
    simp only [he]
    exact hr
  | error e q =>
    rw [hm] at h
    exact h

theorem map {g : α → β} (h : Runs a m (fun x => R (g x)) p) : Runs a (g <$> m) R p := by
  unfold Runs at h ⊢
  rw [run_map]
  cases hm : m p with
  | ok x q => simpa only [hm] using h
  | error e q => simpa only [hm] using h

/-- Only what the parser does at `p` matters. -/
theorem congr {m' : Parser α} (h : Runs a m' Q p) (he : m p = m' p) : Runs a m Q p := by
  unfold Runs
  rw [he]
  exact h

/-- The start may be another assembly that does the same with what is left. -/
theorem of_finish_eq (h : Runs b m Q p) (he : a.finish p.rest = b.finish p.rest) :
    Runs a m Q p := by
  unfold Runs at h ⊢
  rwa [he]

/-- A token at fault stops the parser and the assembly alike. -/
theorem of_fault {cause : LayoutFault} (hm : p.next.mark = .fault cause)
    (h : m p = .error ⟨.layout cause, p.next.place.wideSpot⟩ p) : Runs a m Q p := by
  unfold Runs
  rw [h]
  exact Assembly.finish_of_fault (by rw [Assembly.move, hm])

theorem of_refuse {q : Progress} {w : String} (h : m p = .error (p.refusal w) q)
    (ha : a.move p.next = .refuse w) : Runs a m Q p := by
  unfold Runs
  rw [h]
  exact Assembly.finish_of_refuse ha

theorem of_ok {x : α} {q : Progress} (h : m p = .ok x q) (hb : Q x b q)
    (he : a.finish p.rest = b.finish q.rest) : Runs a m Q p := by
  unfold Runs
  rw [h]
  exact ⟨b, hb, he⟩

end Runs

theorem Progress.rest_eq_cons {p : Progress} (h : p.next.tag ≠ .eof) :
    p.rest = p.next :: p.rest.tail := by
  obtain ⟨_ | ⟨t, ts⟩, c⟩ := p
  · exact absurd rfl h
  · rfl

theorem Progress.length_tail_lt {p : Progress} (h : p.next.tag ≠ .eof) :
    p.rest.tail.length < p.rest.length := by
  rw [Progress.rest_eq_cons h]
  simp

theorem LayoutToken.exists_fault {t : LayoutToken} (h : t.tag = .error) :
    ∃ cause, t.mark = .fault cause := by
  unfold LayoutToken.tag at h
  cases hm : t.mark <;> simp_all [LayoutMark.tag]

theorem LayoutToken.exists_text {t : LayoutToken} (h : t.tag = .text) :
    ∃ content, t.mark = .text content := by
  unfold LayoutToken.tag at h
  cases hm : t.mark <;> simp_all [LayoutMark.tag]

section

variable {α : Type} {a b : Assembly} {p : Progress} {Q : α → Assembly → Progress → Prop}

/-- The part of the parser starts with a look at the next token. -/
theorem Runs.of_peek {m : Parser α}
    (hm : ∀ cause, p.next.mark = .fault cause →
      m p = .error ⟨.layout cause, p.next.place.wideSpot⟩ p)
    (h : p.next.tag ≠ .error → Runs a m Q p) : Runs a m Q p := by
  by_cases ht : p.next.tag = .error
  · obtain ⟨cause, hc⟩ := LayoutToken.exists_fault ht
    exact .of_fault hc (hm cause hc)
  · exact h ht

theorem runs_expect {tag : Tag} (ht : tag ≠ .error) (he : tag ≠ .eof)
    (h : p.next.tag ≠ .error → a.take p.next = Assembly.require tag b p.next) :
    Runs a (expect tag) (fun _ b' q => b' = b ∧ q.rest.length < p.rest.length) p := by
  apply Runs.of_peek
  · intro cause hc
    simp [expect, run_bind, peek_of_fault hc]
  · intro hp
    by_cases htag : p.next.tag = tag
    · have hne : p.next.tag ≠ .eof := htag ▸ he
      refine .of_ok (expect_of_eq htag ht he) ⟨rfl, Progress.length_tail_lt hne⟩ ?_
      rw [Progress.rest_eq_cons hne]
      apply Assembly.finish_of_on
      rw [Assembly.move_of_ne hp, h hp, Assembly.require, if_pos htag]
    · refine .of_refuse (expect_of_ne htag hp) ?_
      rw [Assembly.move_of_ne hp, h hp, Assembly.require, if_neg htag]

theorem runs_line {reader : Reader α} {g : α → Assembly}
    (h : p.next.tag ≠ .error → a.take p.next =
      Assembly.readLine reader (fun x => .on (g x)) "a statement" p.next) :
    Runs a (line reader) (fun x b q => b = g x ∧ q.rest.length < p.rest.length) p := by
  apply Runs.of_peek
  · intro cause hc
    simp [line, beginLine, run_bind, peek_of_fault hc]
  · intro hp
    by_cases htag : p.next.tag = .text
    · obtain ⟨content, hc⟩ := LayoutToken.exists_text htag
      have hne : p.next.tag ≠ .eof := by rw [htag]; decide
      have hmove := (Assembly.move_of_ne (a := a) hp).trans (h hp)
      rw [Assembly.readLine, hc] at hmove
      cases hr : reader (.ofContent content p.next.place) with
      | ok x c =>
        refine .of_ok (x := x) (by rw [line_of_text hc, hr]) ⟨rfl, Progress.length_tail_lt hne⟩ ?_
        rw [Progress.rest_eq_cons hne]
        exact Assembly.finish_of_on (by simpa only [hr] using hmove)
      | error f c =>
        unfold Runs
        simp only [line_of_text hc, hr]
        exact Assembly.finish_of_fault (by simpa only [hr] using hmove)
    · refine .of_refuse (line_of_ne htag hp) ?_
      rw [Assembly.move_of_ne hp, h hp, Assembly.readLine]
      unfold LayoutToken.tag at htag
      cases hm : p.next.mark <;> simp_all [LayoutMark.tag]

theorem runs_finishStatement {s : Statement} {done : List Statement}
    {outer : List (Owner × List Statement)} {closer : Tag}
    (hc : Assembly.closer ⟨.line, done, outer⟩ = closer) :
    Runs ⟨.after s, done, outer⟩ (finishStatement s closer)
      (fun last b q => q.rest.length ≤ p.rest.length ∧
        if last then b = ⟨.after s, done, outer⟩ ∧ q.next.tag = closer
        else b = ⟨.line, done ++ [s], outer⟩) p := by
  have hclose : ∀ t : LayoutToken, t.tag ≠ closer →
      Assembly.take ⟨.after s, done, outer⟩ t =
        if s.isCompound then Assembly.onLine ⟨.line, done ++ [s], outer⟩ t
        else Assembly.require .newline ⟨.line, done ++ [s], outer⟩ t := by
    intro t ht
    rw [← hc] at ht
    exact if_neg ht
  apply Runs.of_peek
  · intro cause hf
    simp [finishStatement, sees, run_bind, run_map, peek_of_fault hf]
  · intro hp
    by_cases htag : p.next.tag = closer
    · refine .of_ok (x := true) (q := p) (b := ⟨.after s, done, outer⟩) ?_ ⟨Nat.le_refl _, rfl, htag⟩ rfl
      simp [finishStatement, run_bind, sees_of_ne hp, htag]
    · by_cases hs : s.isCompound
      · refine .of_ok (x := false) (q := p) (b := ⟨.line, done ++ [s], outer⟩) ?_ ⟨Nat.le_refl _, rfl⟩ ?_
        · simp [finishStatement, run_bind, sees_of_ne hp, htag, hs]
        · apply Assembly.finish_congr
          rw [Assembly.move_of_ne hp, Assembly.move_of_ne hp, hclose _ htag, if_pos hs]
          rfl
      · have hsees : finishStatement s closer p = (expect .newline >>= fun _ => pure false) p := by
          simp [finishStatement, run_bind, run_map, sees_of_ne hp, htag, hs]
        refine Runs.congr ?_ hsees
        refine (runs_expect (b := ⟨.line, done ++ [s], outer⟩) (by decide) (by decide)
          fun _ => ?_).bind ?_
        · rw [hclose _ htag, if_neg hs]
        · rintro x b q ⟨rfl, hq⟩
          exact .pure ⟨Nat.le_of_lt hq, rfl⟩

/-- What a round of a repetition comes to when `as` was found before it. -/
def RoundPost (Q I : List α → Assembly → Progress → Prop) (as : List α) (bound : Nat) :
    Round α → Assembly → Progress → Prop
  | .stop, b, q => Q as b q
  | .last x, b, q => Q (as ++ [x]) b q
  | .more x, b, q => I (as ++ [x]) b q ∧ q.rest.length < bound

/-- A repetition does what the assembly does, if each of its rounds does and keeps `I`. -/
theorem runs_rounds {I Q : List α → Assembly → Progress → Prop} {round : Parser (Round α)} {n : Nat}
    (hround : ∀ as a p, p.rest.length ≤ n → I as a p →
      Runs a round (RoundPost Q I as p.rest.length) p) :
    ∀ (p : Progress) (as : List α) (a : Assembly), p.rest.length ≤ n → I as a p →
      Runs a (rounds round) (fun xs => Q (as ++ xs)) p := by
  intro p
  unfold rounds
  -- Each round is one more step of the repetition; the assembly takes it with what `I` says so far.
  fun_induction repeated (fun p : Progress => p.rest.length) round p with
  | case1 p e q hr =>
    intro as a hn hI
    have h := hround as a p hn hI
    unfold Runs at h ⊢
    rw [repeated_of_error hr]
    simpa only [hr] using h
  | case2 p q hr =>
    intro as a hn hI
    have h := hround as a p hn hI
    unfold Runs at h ⊢
    rw [repeated_of_stop hr]
    simpa only [hr, RoundPost, List.append_nil] using h
  | case3 p x q hr =>
    intro as a hn hI
    have h := hround as a p hn hI
    unfold Runs at h ⊢
    rw [repeated_of_last hr]
    simpa only [hr, RoundPost] using h
  | case4 p x q hr hlt e q' hrec ih =>
    intro as a hn hI
    have h := hround as a p hn hI
    unfold Runs at h
    simp only [hr, RoundPost] at h
    obtain ⟨b, ⟨hb, hlen⟩, he⟩ := h
    have hi := ih (as ++ [x]) b (by omega) hb
    unfold Runs at hi ⊢
    rw [repeated_of_more hr hlt, run_map, he]
    simpa only [hrec] using hi
  | case5 p x q hr hlt xs q' hrec ih =>
    intro as a hn hI
    have h := hround as a p hn hI
    unfold Runs at h
    simp only [hr, RoundPost] at h
    obtain ⟨b, ⟨hb, hlen⟩, he⟩ := h
    have hi := ih (as ++ [x]) b (by omega) hb
    unfold Runs at hi ⊢
    rw [repeated_of_more hr hlt, run_map, he]
    simpa only [hrec, List.append_assoc, List.singleton_append] using hi
  | case6 p x q hr hlt =>
    intro as a hn hI
    have h := hround as a p hn hI
    unfold Runs at h
    simp only [hr, RoundPost] at h
    obtain ⟨b, ⟨-, hlen⟩, -⟩ := h
    exact absurd hlen hlt

theorem runs_lookAhead {reader : Reader α}
    (h : ∀ content f c, p.next.mark = .text content →
      reader (.ofContent content p.next.place) = .error f c → a.take p.next = .fault f) :
    Runs a (lookAhead reader) (fun x b q => b = a ∧ q = p ∧ p.next.tag ≠ .error ∧
      match x with
      | none => p.next.tag ≠ .text
      | some x => ∃ content c, p.next.mark = .text content ∧
          reader (.ofContent content p.next.place) = .ok x c) p := by
  apply Runs.of_peek
  · intro cause hc
    simp [lookAhead, peekLine, run_bind, peek_of_fault hc]
  · intro hp
    by_cases htag : p.next.tag = .text
    · obtain ⟨content, hc⟩ := LayoutToken.exists_text htag
      cases hr : reader (.ofContent content p.next.place) with
      | ok x c =>
        exact .of_ok (x := some x) (by rw [lookAhead_of_text hc, hr]) ⟨rfl, rfl, hp, content, c, hc, hr⟩ rfl
      | error f c =>
        unfold Runs
        simp only [lookAhead_of_text hc, hr]
        exact Assembly.finish_of_fault ((Assembly.move_of_ne hp).trans (h content f c hc hr))
    · exact .of_ok (x := none) (lookAhead_of_ne htag hp) ⟨rfl, rfl, hp, htag⟩ rfl

theorem Assembly.lookAt_of_ne {reader : Reader Bool} {next other : LayoutToken → Move}
    {t : LayoutToken} (h : t.tag ≠ .text) : lookAt reader next other t = other t := by
  unfold LayoutToken.tag at h
  cases hm : t.mark <;> simp_all [lookAt, LayoutMark.tag]

/-- Each block below a line of a block is read from fewer tokens. -/
theorem runs_blockOf {statement : Parser Statement} {n : Nat}
    (hs : ∀ q, q.rest.length < n → ∀ done outer, outer ≠ [] →
      Runs ⟨.line, done, outer⟩ statement
        (fun s b r => b = ⟨.after s, done, outer⟩ ∧ r.rest.length < q.rest.length) q)
    (owner : Owner) (done : List Statement) (outer : List (Owner × List Statement))
    (p : Progress) (hp : p.rest.length ≤ n) :
    Runs ⟨.block owner, done, outer⟩ (blockOf statement)
      (fun block b q => b = ⟨owner.close block, done, outer⟩ ∧ q.rest.length < p.rest.length) p := by
  unfold blockOf
  refine (runs_expect (b := ⟨.line, [], (owner, done) :: outer⟩) (by decide) (by decide)
    fun _ => rfl).bind ?_
  rintro - b q ⟨rfl, hq⟩
  refine Runs.bind (runs_rounds (n := q.rest.length)
    (I := fun as b r => b = ⟨.line, as, (owner, done) :: outer⟩ ∧ r.rest.length ≤ q.rest.length)
    (Q := fun as b r => ∃ front last, as = front ++ [last] ∧
      b = ⟨.after last, front, (owner, done) :: outer⟩ ∧ r.next.tag = .dedent ∧
      r.rest.length ≤ q.rest.length) ?_ q [] _ (Nat.le_refl _) ⟨rfl, Nat.le_refl _⟩) ?_
  · rintro as b r - ⟨rfl, hr⟩
    refine (hs r (by omega) as _ (by simp)).bind ?_
    rintro s b r' ⟨rfl, hr'⟩
    refine (runs_finishStatement rfl).bind ?_
    rintro last b r'' ⟨hle, hb⟩
    cases last with
    | true =>
      obtain ⟨rfl, htag⟩ := hb
      exact .pure ⟨as, s, rfl, rfl, htag, by omega⟩
    | false =>
      simp only [Bool.false_eq_true, if_false] at hb
      subst hb
      exact .pure ⟨⟨rfl, by omega⟩, by omega⟩
  · rintro ss b r ⟨front, last, hss, rfl, htag, hr⟩
    rw [List.nil_append] at hss
    subst hss
    refine (runs_expect
      (b := ⟨owner.close ⟨front ++ [last], extentOf (front ++ [last])⟩, done, outer⟩)
      (by decide) (by decide) fun _ => ?_).bind ?_
    · rw [Assembly.require, if_pos htag]
      exact if_pos htag
    · rintro - b q' ⟨rfl, hq'⟩
      exact .pure ⟨rfl, by omega⟩

/-- What a parser of blocks has to do on layouts of less than `n` tokens. -/
def BlockRuns (block : Parser Block) (n : Nat) : Prop :=
  ∀ q : Progress, q.rest.length < n → ∀ owner done outer, Runs ⟨.block owner, done, outer⟩ block
    (fun body b r => b = ⟨owner.close body, done, outer⟩ ∧ r.rest.length < q.rest.length) q

variable {block : Parser Block} {n : Nat} {done : List Statement}
  {outer : List (Owner × List Statement)}

theorem runs_elifClause? (hb : BlockRuns block n) (br : OpenBranch) (hp : p.rest.length ≤ n) :
    Runs ⟨.clause br, done, outer⟩ (elifClause? block) (fun e b q =>
      match e with
      | some e => b = ⟨.clause { br with elifs := br.elifs ++ [e] }, done, outer⟩ ∧
          q.rest.length < p.rest.length
      | none => b = ⟨.clause br, done, outer⟩ ∧ q = p ∧ (p.next.tag ≠ .error →
          b.take p.next = Assembly.onElse ⟨.clause br, done, outer⟩ br p.next)) p := by
  unfold elifClause?
  refine (runs_lookAhead ?_).bind ?_
  · intro content f c hc hr
    simp [Assembly.take, Assembly.onElif, Assembly.lookAt, hc, hr]
  · rintro (_ | _ | _) b q ⟨rfl, rfl, hne, hx⟩
    · exact .pure ⟨rfl, rfl, fun _ => Assembly.lookAt_of_ne hx⟩
    · obtain ⟨content, c, hc, hr⟩ := hx
      refine .pure ⟨rfl, rfl, fun _ => ?_⟩
      simp [Assembly.take, Assembly.onElif, Assembly.lookAt, hc, hr]
    · obtain ⟨content, c, hc, hr⟩ := hx
      refine (runs_line (g := fun x => ⟨.block (.elif br x.1 x.2), done, outer⟩) fun _ => ?_).bind ?_
      · simp [Assembly.take, Assembly.onElif, Assembly.lookAt, hc, hr]
      · rintro ⟨condition, keyword⟩ b r ⟨rfl, hr'⟩
        refine (hb r (by omega) _ _ _).bind ?_
        rintro body b r' ⟨rfl, hr''⟩
        exact .pure ⟨rfl, by omega⟩

theorem runs_elseClause? (hb : BlockRuns block n) (br : OpenBranch) (hp : p.rest.length ≤ n)
    (ha : p.next.tag ≠ .error →
      a.take p.next = Assembly.onElse ⟨.clause br, done, outer⟩ br p.next) :
    Runs a (elseClause? block) (fun last b q =>
      b = ⟨.after (br.statement last), done, outer⟩ ∧ q.rest.length ≤ p.rest.length) p := by
  have hnone : p.next.tag ≠ .error → (a.take p.next =
      Assembly.onEnd ⟨.clause br, done, outer⟩ (br.statement none) p.next) →
      Runs a (pure none : Parser (Option Block)) (fun last b q =>
        b = ⟨.after (br.statement last), done, outer⟩ ∧ q.rest.length ≤ p.rest.length) p := by
    intro hne he
    refine .of_finish_eq (b := ⟨.after (br.statement none), done, outer⟩)
      (.pure ⟨rfl, Nat.le_refl _⟩) ?_
    apply Assembly.finish_congr
    rw [Assembly.move_of_ne hne, Assembly.move_of_ne hne, he]
    rfl
  unfold elseClause?
  refine (runs_lookAhead ?_).bind ?_
  · intro content f c hc hr
    have hne : p.next.tag ≠ .error := by simp [LayoutToken.tag, hc, LayoutMark.tag]
    simp [ha hne, Assembly.onElse, Assembly.lookAt, hc, hr]
  · rintro (_ | _ | _) b q ⟨rfl, rfl, hne, hx⟩
    · exact hnone hne ((ha hne).trans (Assembly.lookAt_of_ne hx))
    · obtain ⟨content, c, hc, hr⟩ := hx
      apply hnone hne
      simp [ha hne, Assembly.onElse, Assembly.lookAt, hc, hr]
    · obtain ⟨content, c, hc, hr⟩ := hx
      refine (runs_line (g := fun _ => ⟨.block (.otherwise br), done, outer⟩) fun _ => ?_).bind ?_
      · simp [ha hne, Assembly.onElse, Assembly.lookAt, hc, hr]
      · rintro - b r ⟨rfl, hr'⟩
        apply Runs.map
        refine (hb r (by omega) _ _ _).imp ?_
        rintro body b r' ⟨rfl, hr''⟩
        exact ⟨rfl, by omega⟩

theorem runs_branch (hb : BlockRuns block n) (condition : Expression) (keyword : Span)
    (hp : p.rest.length < n) :
    Runs ⟨.block (.branch condition keyword), done, outer⟩
      (statementOf block (.branch condition keyword))
      (fun s b q => b = ⟨.after s, done, outer⟩ ∧ q.rest.length < p.rest.length) p := by
  unfold statementOf
  refine (hb p hp _ _ _).bind ?_
  rintro body b q ⟨rfl, hq⟩
  let br (es : List ElifClause) : OpenBranch := ⟨condition, keyword, body, es⟩
  refine Runs.bind (runs_rounds (n := q.rest.length)
    (I := fun es b r => b = ⟨.clause (br es), done, outer⟩ ∧ r.rest.length ≤ q.rest.length)
    (Q := fun es b r => (r.next.tag ≠ .error → b.take r.next =
      Assembly.onElse ⟨.clause (br es), done, outer⟩ (br es) r.next) ∧
      r.rest.length ≤ q.rest.length) ?_ q [] _ (Nat.le_refl _) ⟨rfl, Nat.le_refl _⟩) ?_
  · rintro es b r - ⟨rfl, hr⟩
    apply Runs.map
    refine (runs_elifClause? hb (br es) (by omega)).imp ?_
    rintro (_ | e) b r' hb'
    · obtain ⟨rfl, rfl, htake⟩ := hb'
      exact ⟨htake, hr⟩
    · obtain ⟨rfl, hr'⟩ := hb'
      exact ⟨⟨rfl, by omega⟩, hr'⟩
  · rintro es b r ⟨htake, hr⟩
    refine (runs_elseClause? hb (br es) (by omega) htake).bind ?_
    rintro last b r' ⟨rfl, hr'⟩
    exact .pure ⟨rfl, by omega⟩

/-- A separator and a choice have to follow a caption. -/
theorem runs_captionEnd (m : OpenMenu) :
    Runs ⟨.captioned m, done, outer⟩ (do
      if ← sees [.dedent] then refuse "a menu choice" (← peek)
      let _ ← expect .newline
      return m.caption)
      (fun caption b q => (b = ⟨.choice { m with caption }, done, outer⟩) ∧
        q.rest.length ≤ p.rest.length) p := by
  apply Runs.of_peek
  · intro cause hc
    simp [sees, run_bind, run_map, peek_of_fault hc]
  · intro hne
    by_cases htag : p.next.tag = .dedent
    · refine .of_refuse (q := p) (w := "a menu choice") ?_ ?_
      · simp [run_bind, sees_of_ne hne, peek_of_ne hne, refuse_next, htag]
      · have hm : p.next.mark = .dedent := by
          unfold LayoutToken.tag at htag
          cases hm : p.next.mark <;> simp_all [LayoutMark.tag]
        rw [Assembly.move_of_ne hne]
        exact if_pos hm
    · have hm : p.next.mark ≠ .dedent := by
        intro hm
        simp [LayoutToken.tag, hm, LayoutMark.tag] at htag
      have hrun : Runs ⟨.captioned m, done, outer⟩ (expect .newline >>= fun _ => pure m.caption)
          (fun caption b q => (b = ⟨.choice { m with caption }, done, outer⟩) ∧
            q.rest.length ≤ p.rest.length) p := by
        refine (runs_expect (a := ⟨.captioned m, done, outer⟩) (b := ⟨.choice m, done, outer⟩)
          (by decide) (by decide) fun _ => if_neg hm).bind ?_
        rintro - b q ⟨rfl, hq⟩
        exact .pure ⟨rfl, Nat.le_of_lt hq⟩
      refine hrun.congr ?_
      rw [run_bind_of_ok (sees_of_ne hne _)]
      simp only [List.contains_cons, List.contains_nil, Bool.or_false, beq_iff_eq, htag, if_false]

theorem runs_caption? (m : OpenMenu) (hm : m.caption = none) :
    Runs ⟨.caption m, done, outer⟩ caption? (fun caption b q =>
      b = ⟨.choice { m with caption }, done, outer⟩ ∧ q.rest.length ≤ p.rest.length) p := by
  have hnone : p.next.tag ≠ .error → (Assembly.take ⟨.caption m, done, outer⟩ p.next =
      Assembly.onChoice ⟨.caption m, done, outer⟩ m p.next) →
      Runs ⟨.caption m, done, outer⟩ (pure none : Parser (Option Say)) (fun caption b q =>
        b = ⟨.choice { m with caption }, done, outer⟩ ∧ q.rest.length ≤ p.rest.length) p := by
    intro hne he
    refine .of_finish_eq (b := ⟨.choice { m with caption := none }, done, outer⟩)
      (.pure ⟨rfl, Nat.le_refl _⟩) ?_
    apply Assembly.finish_congr
    rw [Assembly.move_of_ne hne, Assembly.move_of_ne hne, he, ← hm]
    rfl
  unfold caption?
  refine (runs_lookAhead ?_).bind ?_
  · intro content f c hc hr
    simp [Assembly.take, Assembly.lookAt, hc, run_map, hr]
  · rintro (_ | _ | _) b q ⟨rfl, rfl, hne, hx⟩
    · exact hnone hne (Assembly.lookAt_of_ne hx)
    · obtain ⟨content, c, hc, hr⟩ := hx
      apply hnone hne
      simp [Assembly.take, Assembly.lookAt, hc, run_map, hr]
    · obtain ⟨content, c, hc, hr⟩ := hx
      refine (runs_line
        (g := fun caption => ⟨.captioned { m with caption }, done, outer⟩) fun _ => ?_).bind ?_
      · simp [Assembly.take, Assembly.lookAt, hc, run_map, hr]
      · rintro caption b r ⟨rfl, hr'⟩
        exact (runs_captionEnd { m with caption }).imp fun _ b q ⟨hb, hq⟩ => ⟨hb, by omega⟩

theorem runs_choice (hb : BlockRuns block n) (m : OpenMenu) (hp : p.rest.length ≤ n) :
    Runs ⟨.choice m, done, outer⟩ (choice block) (fun c b q =>
      b = ⟨.chosen { m with choices := m.choices ++ [c] }, done, outer⟩ ∧
        q.rest.length < p.rest.length) p := by
  unfold choice
  refine (runs_line
    (g := fun x => ⟨.block (.choice m x.1 x.2), done, outer⟩) fun _ => rfl).bind ?_
  rintro ⟨text, condition⟩ b q ⟨rfl, hq⟩
  refine (hb q (by omega) _ _ _).bind ?_
  rintro body b r ⟨rfl, hr⟩
  exact .pure ⟨rfl, by omega⟩

/-- After a choice a menu is closed or goes on with a choice. -/
theorem runs_chosen (m : OpenMenu) (c : Choice) :
    Runs ⟨.chosen m, done, outer⟩
      (sees [.dedent] >>= fun x => pure (if x = true then Round.last c else .more c))
      (fun x b q => q = p ∧ match x with
        | Round.stop => False
        | .last c' => c' = c ∧ b = ⟨.chosen m, done, outer⟩ ∧ p.next.tag = .dedent
        | .more c' => c' = c ∧ b = ⟨.choice m, done, outer⟩) p := by
  apply Runs.of_peek
  · intro cause hc
    simp [sees, run_bind, run_map, peek_of_fault hc]
  · intro hne
    by_cases htag : p.next.tag = .dedent
    · refine .of_ok (x := Round.last c) (q := p) ?_ ⟨rfl, rfl, rfl, htag⟩ rfl
      simp [run_bind, sees_of_ne hne, htag]
    · refine .of_ok (x := Round.more c) (q := p) (b := ⟨.choice m, done, outer⟩) ?_ ⟨rfl, rfl, rfl⟩ ?_
      · simp [run_bind, sees_of_ne hne, htag]
      · have hm : p.next.mark ≠ .dedent := by
          intro hm
          simp [LayoutToken.tag, hm, LayoutMark.tag] at htag
        apply Assembly.finish_congr
        rw [Assembly.move_of_ne hne, Assembly.move_of_ne hne]
        exact if_neg hm

theorem runs_menuBody (hb : BlockRuns block n) (m : OpenMenu) (hm : m.caption = none)
    (hc : m.choices = []) (hp : p.rest.length ≤ n) :
    Runs ⟨.menu m, done, outer⟩ (menuBody block) (fun x b q =>
      b = ⟨.after (OpenMenu.statement { m with caption := x.1, choices := x.2 }), done, outer⟩ ∧
        q.rest.length < p.rest.length) p := by
  unfold menuBody
  refine (runs_expect (b := ⟨.caption m, done, outer⟩) (by decide) (by decide) fun _ => rfl).bind ?_
  rintro - b q ⟨rfl, hq⟩
  refine (runs_caption? m hm).bind ?_
  rintro caption b r ⟨rfl, hr⟩
  let menu (cs : List Choice) : OpenMenu := { m with caption, choices := cs }
  refine Runs.bind (runs_rounds (n := r.rest.length)
    (I := fun cs b r' => b = ⟨.choice (menu cs), done, outer⟩ ∧ r'.rest.length ≤ r.rest.length)
    (Q := fun cs b r' => b = ⟨.chosen (menu cs), done, outer⟩ ∧ r'.next.tag = .dedent ∧
      r'.rest.length ≤ r.rest.length) ?_ r [] _ (Nat.le_refl _)
    ⟨by rw [show menu [] = { m with caption } by rw [← hc]], Nat.le_refl _⟩) ?_
  · rintro cs b r' - ⟨rfl, hr'⟩
    refine (runs_choice hb (menu cs) (by omega)).bind ?_
    rintro c b q' ⟨rfl, hq'⟩
    refine (runs_chosen (menu (cs ++ [c])) c).imp ?_
    rintro (_ | c' | c') b q'' ⟨rfl, hx⟩
    · exact hx.elim
    · obtain ⟨rfl, rfl, htag⟩ := hx
      exact ⟨rfl, htag, by omega⟩
    · obtain ⟨rfl, rfl⟩ := hx
      exact ⟨⟨rfl, by omega⟩, hq'⟩
  · rintro cs b r' ⟨rfl, htag, hr'⟩
    have hmark : r'.next.mark = .dedent := by
      unfold LayoutToken.tag at htag
      cases hm : r'.next.mark <;> simp_all [LayoutMark.tag]
    refine (runs_expect (b := ⟨.after (menu cs).statement, done, outer⟩) (by decide) (by decide)
      fun _ => ?_).bind ?_
    · rw [Assembly.require, if_pos htag]
      exact if_pos hmark
    · rintro - b q' ⟨rfl, hq'⟩
      exact .pure ⟨rfl, by omega⟩

theorem runs_statementWith (hb : BlockRuns block n) (hp : p.rest.length ≤ n)
    (ho : p.next.mark = .eof → outer ≠ []) :
    Runs ⟨.line, done, outer⟩ (statementWith block)
      (fun s b q => b = ⟨.after s, done, outer⟩ ∧ q.rest.length < p.rest.length) p := by
  unfold statementWith
  refine (runs_line (g := fun h => ⟨h.stage, done, outer⟩) fun _ => ?_).bind ?_
  · exact if_neg fun h => ho h.1 h.2
  · rintro (⟨action, span⟩ | ⟨name, keyword⟩ | ⟨condition, keyword⟩ | ⟨condition, keyword⟩ |
      ⟨name, keyword⟩) b q ⟨rfl, hq⟩
    · exact .pure ⟨rfl, hq⟩
    · refine (hb q (by omega) _ _ _).bind ?_
      rintro body b r ⟨rfl, hr⟩
      exact .pure ⟨rfl, by omega⟩
    · refine (runs_branch hb condition keyword (by omega)).imp ?_
      rintro s b r ⟨rfl, hr⟩
      exact ⟨rfl, by omega⟩
    · refine (hb q (by omega) _ _ _).bind ?_
      rintro body b r ⟨rfl, hr⟩
      exact .pure ⟨rfl, by omega⟩
    · refine (runs_menuBody hb ⟨name, keyword, none, []⟩ rfl rfl (by omega)).bind ?_
      rintro ⟨caption, choices⟩ b r ⟨rfl, hr⟩
      exact .pure ⟨rfl, by omega⟩

/-- On shorter layouts the guard of the recursion lets everything pass. -/
theorem BlockRuns.guarded (hb : BlockRuns block n) (other : Parser Block) :
    BlockRuns (fun q => if q.rest.length < n then block q else other q) n := by
  intro q hq owner done outer
  exact (hb q hq owner done outer).congr (if_pos hq)

theorem blockRuns_block : BlockRuns Parser.block n := by
  induction n with
  | zero =>
    intro q hq
    omega
  | succ n ih =>
    intro p hp owner done outer
    refine Runs.congr ?_ (by rw [Parser.block])
    refine runs_blockOf (n := p.rest.length) ?_ owner done outer p (Nat.le_refl _)
    intro q hq done outer ho
    have hb : BlockRuns Parser.block p.rest.length := fun r hr => ih r (by omega)
    exact runs_statementWith (hb.guarded _) (Nat.le_of_lt hq) fun _ => ho

theorem runs_statement (ho : p.next.mark = .eof → outer ≠ []) :
    Runs ⟨.line, done, outer⟩ Parser.statement
      (fun s b q => b = ⟨.after s, done, outer⟩ ∧ q.rest.length < p.rest.length) p :=
  runs_statementWith blockRuns_block (Nat.le_refl _) ho

theorem LayoutToken.mark_of_eof {t : LayoutToken} (h : t.tag = .eof) : t.mark = .eof := by
  unfold LayoutToken.tag at h
  cases hm : t.mark <;> simp_all [LayoutMark.tag]

/-- At the end of the script the last statement may as well count as one of those before. -/
theorem Assembly.finish_after_eq_line {s : Statement} (h : p.next.tag = .eof) :
    Assembly.finish ⟨.after s, done, []⟩ p.rest = Assembly.finish ⟨.line, done ++ [s], []⟩ p.rest := by
  have hm := LayoutToken.mark_of_eof h
  have hne : p.next.tag ≠ .error := by rw [h]; decide
  apply Assembly.finish_congr
  rw [Assembly.move_of_ne hne, Assembly.move_of_ne hne]
  simp [Assembly.take, Assembly.onEnd, Assembly.closer, Assembly.close, Assembly.onLine, h, hm]

/-- At the top level statements follow each other up to the end of the script. -/
theorem runs_topRounds (hp : p.next.tag ≠ .eof) :
    Runs .initial (rounds do
      if ← sees [.eof] then return .stop
      let s ← Parser.statement
      let _ ← finishStatement s .eof
      return .more s)
      (fun ss b q => b = ⟨.line, ss, []⟩ ∧ ss ≠ [] ∧ q.next.tag = .eof) p := by
  refine runs_rounds (n := p.rest.length)
    (I := fun ss b q => b = ⟨.line, ss, []⟩ ∧ (ss = [] → q.next.tag ≠ .eof))
    (Q := fun ss b q => b = ⟨.line, ss, []⟩ ∧ ss ≠ [] ∧ q.next.tag = .eof) ?_ p [] _
    (Nat.le_refl _) ⟨rfl, fun _ => hp⟩
  rintro ss b q - ⟨rfl, hss⟩
  apply Runs.of_peek
  · intro cause hc
    simp [sees, run_bind, run_map, peek_of_fault hc]
  · intro hne
    by_cases htag : q.next.tag = .eof
    · refine .of_ok (x := Round.stop) (q := q) ?_ ⟨rfl, fun h => hss h htag, htag⟩ rfl
      simp [run_bind, sees_of_ne hne, htag]
    · have hrun : Runs ⟨.line, ss, []⟩ (do
          let s ← Parser.statement
          let _ ← finishStatement s .eof
          return Round.more s) (RoundPost (fun ss b q => b = ⟨.line, ss, []⟩ ∧ ss ≠ [] ∧
            q.next.tag = .eof) (fun ss b q => b = ⟨.line, ss, []⟩ ∧ (ss = [] → q.next.tag ≠ .eof))
            ss q.rest.length) q := by
        refine (runs_statement fun h => ?_).bind ?_
        · simp [LayoutToken.tag, h, LayoutMark.tag] at htag
        · rintro s b r ⟨rfl, hr⟩
          refine (runs_finishStatement rfl).bind ?_
          rintro (_ | _) b r' ⟨hr', hb⟩
          · simp only [Bool.false_eq_true, if_false] at hb
            subst hb
            exact .pure ⟨⟨rfl, by simp⟩, by omega⟩
          · obtain ⟨rfl, heof⟩ := hb
            exact .of_finish_eq (.pure ⟨⟨rfl, by simp⟩, by omega⟩)
              (Assembly.finish_after_eq_line heof)
      refine hrun.congr ?_
      rw [run_bind_of_ok (sees_of_ne hne _)]
      simp only [List.contains_cons, List.contains_nil, Bool.or_false, beq_iff_eq, htag, if_false]

theorem runs_script : Runs .initial script
    (fun ss b q => b = ⟨.line, ss, []⟩ ∧ ss ≠ [] ∧ q.next.tag = .eof) p := by
  unfold script
  apply Runs.of_peek
  · intro cause hc
    simp [sees, run_bind, run_map, peek_of_fault hc]
  · intro hne
    by_cases htag : p.next.tag = .eof
    · refine .of_refuse (q := p) (w := "at least one statement") ?_ ?_
      · simp [run_bind, sees_of_ne hne, peek_of_ne hne, refuse_next, htag]
      · rw [Assembly.move_of_ne hne]
        exact if_pos ⟨LayoutToken.mark_of_eof htag, rfl⟩
    · refine (runs_topRounds htag).congr ?_
      rw [run_bind_of_ok (sees_of_ne hne _)]
      simp only [List.contains_cons, List.contains_nil, Bool.or_false, beq_iff_eq, htag, if_false]

end

namespace Assembly

/-- The recursive parser and the assembly come to the same statements or the same fault. -/
theorem statementsOf_eq (tokens : List LayoutToken) :
    Script.statementsOf tokens = initial.finish tokens := by
  have h : Runs initial script _ { rest := tokens } := runs_script
  unfold Runs at h
  unfold Script.statementsOf
  cases hs : script { rest := tokens } with
  | ok ss q =>
    rw [hs] at h
    obtain ⟨b, ⟨rfl, hne, htag⟩, he⟩ := h
    refine (he.trans (finish_of_complete ?_)).symm
    rw [move_of_ne (by rw [htag]; decide)]
    refine (if_pos ⟨LayoutToken.mark_of_eof htag, rfl⟩).trans (if_neg ?_)
    simpa using hne
  | error f q =>
    rw [hs] at h
    exact h.symm

end Assembly

namespace Script

theorem exists_of_toBool {ε α : Type} {x : Except ε α} (h : x.toBool = true) : ∃ a, x = .ok a := by
  cases x with
  | error e => cases h
  | ok a => exact ⟨a, rfl⟩

variable {rules : LayoutRules} {text : List Char} {tokens : List LayoutToken} (file : Option Path)

theorem parse_of_breakdown {b : Breakdown} (h : layout rules text = .error b) :
    parse rules text file = .error (.breakdown b) := by
  rw [parse, tokenize, h]

theorem parse_of_fault {f : Fault} (h : layout rules text = .ok tokens)
    (hf : firstFault? tokens = some f) :
    parse rules text file = .error (.refused (f.report file (some text))) := by
  rw [parse, tokenize, h]
  simp only [hf]

theorem parse_of_refused {f : Fault} (h : layout rules text = .ok tokens)
    (hf : firstFault? tokens = none) (ha : Assembly.initial.finish tokens = .error f) :
    parse rules text file = .error (.refused (f.report file (some text))) := by
  rw [parse, tokenize, h]
  simp only [hf]
  rw [treeOf, Assembly.statementsOf_eq, ha]
  rfl

theorem parse_of_finish {ss : List Statement} (h : layout rules text = .ok tokens)
    (hf : firstFault? tokens = none) (ha : Assembly.initial.finish tokens = .ok ss) :
    parse rules text file = .ok ⟨ss, file, Parser.extentOf ss⟩ := by
  rw [parse, tokenize, h]
  simp only [hf]
  rw [treeOf, Assembly.statementsOf_eq, ha]
  rfl

/-- The ways in which the reading of a text ends. -/
inductive Ending (rules : LayoutRules) (text : List Char) (file : Option Path) :
    Except Failure SourceFile → Prop
  | breakdown {b : Breakdown} (hl : layout rules text = .error b) :
    Ending rules text file (.error (.breakdown b))
  | fault {tokens : List LayoutToken} {f : Fault} (hl : layout rules text = .ok tokens)
    (hf : firstFault? tokens = some f) :
    Ending rules text file (.error (.refused (f.report file (some text))))
  | refused {tokens : List LayoutToken} {f : Fault} (hl : layout rules text = .ok tokens)
    (hf : firstFault? tokens = none) (ha : Assembly.initial.finish tokens = .error f) :
    Ending rules text file (.error (.refused (f.report file (some text))))
  | tree {tokens : List LayoutToken} {ss : List Statement} (hl : layout rules text = .ok tokens)
    (hf : firstFault? tokens = none) (ha : Assembly.initial.finish tokens = .ok ss) :
    Ending rules text file (.ok ⟨ss, file, Parser.extentOf ss⟩)

theorem ending_parse (rules : LayoutRules) (text : List Char) (file : Option Path) :
    Ending rules text file (parse rules text file) := by
  cases hl : layout rules text with
  | error b => exact parse_of_breakdown file hl ▸ .breakdown hl
  | ok tokens =>
    cases hf : firstFault? tokens with
    | some f => exact parse_of_fault file hl hf ▸ .fault hl hf
    | none =>
      cases ha : Assembly.initial.finish tokens with
      | error f => exact parse_of_refused file hl hf ha ▸ .refused hl hf ha
      | ok ss => exact parse_of_finish file hl hf ha ▸ .tree hl hf ha

/-- A script is read when its layout is, without faults, and an assembly takes all of it. -/
theorem parse_eq_ok {f : SourceFile} : parse rules text file = .ok f ↔
    ∃ tokens ss, layout rules text = .ok tokens ∧ firstFault? tokens = none ∧
      Assembly.initial.finish tokens = .ok ss ∧ f = ⟨ss, file, Parser.extentOf ss⟩ := by
  constructor
  · intro hp
    have hending := ending_parse rules text file
    rw [hp] at hending
    cases hending with
    | tree hl hf ha => exact ⟨_, _, hl, hf, ha, rfl⟩
  · rintro ⟨tokens, ss, hl, hf, ha, rfl⟩
    exact parse_of_finish file hl hf ha

end Script

end NovelScript
