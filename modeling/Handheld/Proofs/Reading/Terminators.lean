import Handheld.Proofs.Reading.Joining
import Handheld.Proofs.Reading.Parsing

/-!
# Missing and stray terminators

A program that is cut off between two statements inside a block lacks an `End`,
and that is said of the place where the input ends. An `End` or `Else` behind a
whole program is one too many, and is refused where it stands, whatever follows.
-/

namespace Handheld

/-! ## Points between statements -/

/-- A point between the statements of a part, by what stands before and behind it. The number says
how many blocks of the part it lies in. -/
inductive Cut : Part → Nat → List Lexeme → List Lexeme → Prop
  /-- The separator of the statement is still to come. -/
  | behind {us : List Lexeme} {s : Stmt} : Sentence .statement us [s] → Cut .statement 0 us []
  | loop {t close : Lexeme} {hs us vs : List Lexeme} {kind : Loop} {n : Nat} :
      Head ((t :: hs).map Lexeme.token) kind (us ++ vs) → Cut .block n us vs →
      close.token = .word .endWord → Cut .statement (n + 1) (t :: hs ++ us) (vs ++ [close])
  | first {t : Lexeme} {hs us vs ns : List Lexeme} {c : Expr} {no : List Stmt} {n : Nat} :
      Choice ((t :: hs).map Lexeme.token) c (us ++ vs) → Cut .block n us vs →
      Sentence .ending ns no → Cut .statement (n + 1) (t :: hs ++ us) (vs ++ ns)
  | second {t : Lexeme} {hs ys us vs : List Lexeme} {c : Expr} {yes : List Stmt} {n : Nat} :
      Choice ((t :: hs).map Lexeme.token) c ys → Sentence .block ys yes → Cut .ending n us vs →
      Cut .statement (n + 1) (t :: hs ++ ys ++ us) vs
  | otherwise {t close : Lexeme} {us vs : List Lexeme} {n : Nat} :
      t.token = .word .elseWord → Cut .block n us vs → close.token = .word .endWord →
      Cut .ending n (t :: us) (vs ++ [close])
  | between {us vs : List Lexeme} {ss ss' : List Stmt} :
      Sentence .block us ss → Sentence .block vs ss' → Cut .block 0 us vs
  | inside {t : Lexeme} {xs us vs zs : List Lexeme} {ss ss' : List Stmt} {n : Nat} :
      Sentence .block xs ss → Cut .statement n us vs → t.token.isSeparator →
      Sentence .block zs ss' → Cut .block n (xs ++ us) (vs ++ t :: zs)
  | upper {us vs ws : List Lexeme} {ss : List Stmt} {n : Nat} :
      Cut .block n us vs → Sentence .program ws ss → Cut .program n us (vs ++ ws)
  | last {xs us vs : List Lexeme} {ss : List Stmt} {n : Nat} :
      Sentence .block xs ss → Cut .statement n us vs → Cut .program n (xs ++ us) vs

theorem Sentence.append_program {ts us : List Lexeme} {ss ss' : List Stmt}
    (h : Sentence .block ts ss) (h' : Sentence .program us ss') :
    Sentence .program (ts ++ us) (ss ++ ss') := by
  cases h' with
  | closed h' => exact .closed (h.append h')
  | unclosed h' hs =>
    rw [← List.append_assoc, ← List.append_assoc]
    exact .unclosed (h.append h') hs

theorem Sentence.exists_single {ts : List Lexeme} {ss : List Stmt} (h : Sentence .statement ts ss) :
    ∃ s, ss = [s] := by
  cases h with
  | simple | cond | loop => exact ⟨_, rfl⟩

theorem Cut.sentence {p : Part} {n : Nat} {us vs : List Lexeme} (h : Cut p n us vs) :
    ∃ ss, Sentence p (us ++ vs) ss := by
  induction h with
  | behind hs => exact ⟨_, by simpa using hs⟩
  | loop hh _ hclose ih =>
    obtain ⟨ss, hs⟩ := ih
    exact ⟨_, by simpa using Sentence.loop hh hs hclose⟩
  | first hc _ hn ih =>
    obtain ⟨ss, hs⟩ := ih
    exact ⟨_, by simpa using Sentence.cond hc hs hn⟩
  | second hc hy _ ih =>
    obtain ⟨ss, hs⟩ := ih
    exact ⟨_, by simpa using Sentence.cond hc hy hs⟩
  | otherwise ht _ hclose ih =>
    obtain ⟨ss, hs⟩ := ih
    exact ⟨_, by simpa using Sentence.otherwise ht hs hclose⟩
  | between hs hs' => exact ⟨_, hs.append hs'⟩
  | inside hxs _ ht hzs ih =>
    obtain ⟨ss, hs⟩ := ih
    obtain ⟨s, rfl⟩ := hs.exists_single
    exact ⟨_, by simpa using hxs.append (.cons hs ht hzs)⟩
  | upper _ hws ih =>
    obtain ⟨ss, hs⟩ := ih
    exact ⟨_, by simpa using hs.append_program hws⟩
  | last hxs _ ih =>
    obtain ⟨ss, hs⟩ := ih
    obtain ⟨s, rfl⟩ := hs.exists_single
    exact ⟨_, by simpa using Sentence.unclosed hxs hs⟩

/-! ## Reading up to such a point -/

theorem mem_head?_append {t : Lexeme} {us : List Lexeme} (h : t ∈ us.head?) (vs : List Lexeme) :
    t ∈ (us ++ vs).head? := by
  cases us with
  | nil => cases h
  | cons => exact h

namespace Parser

variable {stop : Span}

theorem opens_line {n : Nat} {us vs : List Lexeme} (h : Cut .block n us vs) :
    StartsLine us ∧ (Unsigned (us ++ vs) → Unsigned us) := by
  obtain ⟨ss, hs⟩ := h.sentence
  have hline := (behind_block hs (t := ⟨{}, .word .endWord⟩) (.inl rfl) []).1
  rw [List.append_assoc] at hline
  exact ⟨fun t ht => hline t (mem_head?_append ht _), fun hu t ht => hu t (mem_head?_append ht vs)⟩

theorem bind_fails {α β : Type} {x : Except Diagnostic α} {e : Diagnostic} (hx : x = .error e)
    (f : α → Except Diagnostic β) : x >>= f = .error e := by
  rw [hx]
  rfl

theorem Yields.fails {α β : Type} {n : Nat} {x : Except Diagnostic (Parsed α n)} {a : α}
    {ts : List Lexeme} {f : Parsed α n → Except Diagnostic β} {e : Diagnostic} (hx : Yields x a ts)
    (hf : ∀ h, f ⟨a, ts, h⟩ = .error e) : x >>= f = .error e := by
  obtain ⟨h, rfl⟩ := hx
  exact hf h

/-- What is wrong with a block that the input ends in. -/
abbrev unclosed (stop : Span) : Diagnostic :=
  Cause.missingEnd.inSpan stop

/-- What comes of a part that is cut off there. Outside of its blocks the part so far is complete. -/
def Unfinished (stop : Span) (us : List Lexeme) : Part → Nat → Prop
  | .statement, 0 => ∃ s, Sentence .statement us [s]
  | .statement, _ + 1 => ∃ t us', us = t :: us' ∧ t.token.startsStatement ∧
      statement stop us = .error (unclosed stop)
  | .ending, _ => ∃ t us', us = t :: us' ∧ t.token = .word .elseWord ∧
      body stop us' = .error (unclosed stop)
  | _, 0 => ∀ n done h, ∃ ss, Yields (block stop n done us h) (ss, .inputEnd) []
  | _, _ + 1 => ∀ n done h, block stop n done us h = .error (unclosed stop)

theorem Unfinished.body {us : List Lexeme} {n : Nat} (h : Unfinished stop us .block n) :
    body stop us = .error (unclosed stop) := by
  rw [Parser.body]
  cases n with
  | zero =>
    obtain ⟨ss, hss⟩ := h (us.length + 1) #[] (by simp)
    exact hss.fails fun _ => rfl
  | succ n => exact bind_fails (h ..) _

theorem statement_loop_unclosed {t : Lexeme} {hs us behind : List Lexeme} {kind : Loop}
    (hh : Head ((t :: hs).map Lexeme.token) kind behind) (hl : StartsLine us)
    (hu : Unsigned behind → Unsigned us) (hb : body stop us = .error (unclosed stop)) :
    statement stop (t :: (hs ++ us)) = .error (unclosed stop) := by
  obtain ⟨span, token⟩ := t
  have hfor := hh
  generalize hts : (⟨span, token⟩ :: hs : List Lexeme).map Lexeme.token = ts at hh
  cases hh with
  | whileTrue hg | repeatUntil hg =>
    obtain ⟨rfl, rfl⟩ := List.cons.inj hts
    rw [statement]
    exact (guard_yields hg hl hu).fails fun _ => bind_fails hb _
  | count | times =>
    obtain ⟨rfl, -⟩ := List.cons.inj hts
    rw [statement]
    exact (forHead_yields hfor us).fails fun _ => bind_fails hb _

theorem statement_first_unclosed {span : Span} {hs us behind : List Lexeme} {c : Expr} {n : Nat}
    (hc : Choice (.word .ifWord :: hs.map Lexeme.token) c behind) (hl : StartsLine us)
    (hu : Unsigned behind → Unsigned us) (hb : Unfinished stop us .block n) :
    statement stop (⟨span, .word .ifWord⟩ :: (hs ++ us)) = .error (unclosed stop) := by
  obtain ⟨us', marked, _, hexpression, haccept⟩ := choice_yields stop hc hl hu
  rw [statement]
  refine hexpression.fails fun _ => ?_
  dsimp only
  rw [haccept]
  cases n with
  | zero =>
    obtain ⟨ss, hss⟩ := hb (us.length + 1) #[] (by simp)
    exact hss.fails fun _ => rfl
  | succ n => exact bind_fails (hb ..) _

theorem statement_second_unclosed {span : Span} {hs ys us : List Lexeme} {t : Lexeme} {c : Expr}
    {yes : List Stmt} (hc : Choice (.word .ifWord :: hs.map Lexeme.token) c ys)
    (hy : Sentence .block ys yes) (ht : t.token = .word .elseWord)
    (hb : body stop us = .error (unclosed stop)) :
    statement stop (⟨span, .word .ifWord⟩ :: (hs ++ (ys ++ t :: us))) = .error (unclosed stop) := by
  obtain ⟨hl, hu⟩ := behind_block hy (.inr ht) us
  obtain ⟨us', marked, _, hexpression, haccept⟩ := choice_yields stop hc hl hu
  have hfirst : Yields (block stop ((ys ++ t :: us).length + 1) #[] (ys ++ t :: us) (by simp))
      (yes, .elseWord t.span) us := (admits_sentence hy).alone fun _ => else_yields ht
  rw [statement]
  refine hexpression.fails fun _ => ?_
  dsimp only
  rw [haccept]
  exact hfirst.fails fun _ => bind_fails hb _

theorem Unfinished.behind_block {xs us : List Lexeme} {ss : List Stmt} {n : Nat}
    (h : Unfinished stop us .statement n) (hxs : Sentence .block xs ss) :
    Unfinished stop (xs ++ us) .block n := by
  have hskip : ∀ k done h, ∃ h', block stop k done (xs ++ us) h =
      block stop k (done ++ ss.toArray) us h' := fun k done h => block_eq_of_sentence hxs done
  cases n with
  | zero =>
    intro k done hlength
    obtain ⟨s, hs⟩ := h
    obtain ⟨_, hblock⟩ := hskip k done hlength
    obtain ⟨t, us, rfl, hstarts⟩ := hs.starts
    have hstatement : Yields (statement stop (t :: us ++ [])) s [] :=
      admits_sentence hs s [] rfl nofun
    rw [List.append_nil] at hstatement
    rw [hblock]
    exact ⟨_, block_statement hstarts hstatement nofun fun _ => block_nil⟩
  | succ =>
    intro k done hlength
    obtain ⟨t, us, rfl, hstarts, hs⟩ := h
    obtain ⟨_, hblock⟩ := hskip k done hlength
    rw [hblock, block_of_starts hstarts]
    exact bind_fails hs _

theorem unfinished_of_cut {p : Part} {n : Nat} {us vs : List Lexeme} (h : Cut p n us vs) :
    Unfinished stop us p n := by
  induction h with
  | behind hs => exact ⟨_, hs⟩
  | @loop t close hs us vs kind n hh hcut hclose ih =>
    obtain ⟨_, _, hts, hstarts⟩ := hh.starts
    obtain ⟨hl, hu⟩ := opens_line hcut
    exact ⟨t, hs ++ us, rfl, (List.cons.inj hts).1 ▸ hstarts,
      statement_loop_unclosed hh hl hu ih.body⟩
  | @first t hs us vs ns c no n hc hcut hn ih =>
    obtain ⟨span, token⟩ := t
    obtain ⟨_, hts⟩ := hc.starts
    obtain rfl : token = .word .ifWord := (List.cons.inj hts).1
    obtain ⟨hl, hu⟩ := opens_line hcut
    exact ⟨_, hs ++ us, rfl, rfl, statement_first_unclosed hc hl hu ih⟩
  | @second t hs ys us vs c yes n hc hy hcut ih =>
    obtain ⟨span, token⟩ := t
    obtain ⟨_, hts⟩ := hc.starts
    obtain rfl : token = .word .ifWord := (List.cons.inj hts).1
    obtain ⟨u, us, rfl, hu, hbody⟩ := ih
    have h : statement stop (⟨span, .word .ifWord⟩ :: (hs ++ (ys ++ u :: us))) =
        .error (unclosed stop) := statement_second_unclosed hc hy hu hbody
    rw [← List.append_assoc] at h
    exact ⟨⟨span, .word .ifWord⟩, hs ++ ys ++ u :: us, rfl, rfl, h⟩
  | otherwise ht _ _ ih => exact ⟨_, _, rfl, ht, ih.body⟩
  | @between us vs ss _ hs _ =>
    intro k done hlength
    exact ⟨_, by simpa using admits_sentence hs k done [] (by simpa using hlength) _ _ fun _ => block_nil⟩
  | inside hxs _ _ _ ih => exact ih.behind_block hxs
  | @upper _ _ _ _ n _ _ ih =>
    cases n with
    | zero => exact ih
    | succ => exact ih
  | @last _ _ _ _ n hxs _ ih =>
    have h := ih.behind_block hxs
    cases n with
    | zero => exact h
    | succ => exact h

end Parser

/-! ## Points beside a separator -/

theorem Cut.append {n : Nat} {as us vs : List Lexeme} {ss : List Stmt} (h : Cut .block n us vs)
    (has : Sentence .block as ss) : Cut .block n (as ++ us) vs := by
  cases h with
  | between hs hs' => exact .between (has.append hs) hs'
  | inside hxs hcut ht hzs =>
    rw [← List.append_assoc]
    exact .inside (has.append hxs) hcut ht hzs

/-- The points on both sides of `t`. -/
def Beside (p : Part) (xs : List Lexeme) (t : Lexeme) (zs : List Lexeme) : Prop :=
  (∃ n, Cut p n xs (t :: zs)) ∧ ∃ n, Cut p n (xs ++ [t]) zs

theorem Beside.lift {p q : Part} {xs zs : List Lexeme} {t : Lexeme} (h : Beside p xs t zs)
    (as bs : List Lexeme) (hlift : ∀ n us vs, us ++ vs = xs ++ t :: zs → Cut p n us vs →
      ∃ m, Cut q m (as ++ us) (vs ++ bs)) : Beside q (as ++ xs) t (zs ++ bs) := by
  obtain ⟨⟨n, hbefore⟩, m, hbehind⟩ := h
  refine ⟨hlift n xs (t :: zs) rfl hbefore, ?_⟩
  rw [List.append_assoc]
  exact hlift m (xs ++ [t]) zs (by simp) hbehind

theorem Beside.behind {p q : Part} {xs zs : List Lexeme} {t : Lexeme} (h : Beside p xs t zs)
    (as : List Lexeme) (hlift : ∀ n us vs, Cut p n us vs → ∃ m, Cut q m (as ++ us) vs) :
    Beside q (as ++ xs) t zs := by
  obtain ⟨⟨n, hbefore⟩, m, hbehind⟩ := h
  refine ⟨hlift n xs (t :: zs) hbefore, ?_⟩
  rw [List.append_assoc]
  exact hlift m (xs ++ [t]) zs hbehind

theorem mem_parts {t : Lexeme} {xs zs : List Lexeme} (as : List Lexeme) {bs : List Lexeme}
    (h : xs ++ t :: zs = as ++ bs) :
    (∃ zs', as = xs ++ t :: zs' ∧ zs = zs' ++ bs) ∨ ∃ xs', xs = as ++ xs' ∧ bs = xs' ++ t :: zs := by
  rcases List.append_eq_append_iff.1 h with ⟨cs, rfl, hcs⟩ | ⟨cs, rfl, hcs⟩
  · cases cs with
    | nil => exact .inr ⟨[], by simp, by simpa using hcs.symm⟩
    | cons c cs =>
      obtain ⟨rfl, rfl⟩ := List.cons.inj hcs
      exact .inl ⟨cs, rfl, rfl⟩
  · exact .inr ⟨cs, rfl, hcs⟩

theorem not_mem_inline {t : Lexeme} {ts : List Lexeme} (ht : t.token.isSeparator)
    (h : (ts.map Lexeme.token).all Token.isInline) : t ∉ ts := by
  intro hmem
  have hinline := List.all_eq_true.1 h _ (List.mem_map_of_mem hmem)
  generalize t.token = token at *
  cases token with
  | newline | colon => cases hinline
  | _ => cases ht

theorem not_mem_head {t : Lexeme} {ts : List Lexeme} {w : Word} {us : List Token}
    (ht : t.token.isSeparator) (hts : ts.map Lexeme.token = .word w :: us)
    (hus : us.all Token.isInline) : t ∉ ts := by
  obtain ⟨span, ts, rfl, rfl⟩ := Parser.exists_lexeme hts
  intro hmem
  rcases List.mem_cons.1 hmem with rfl | hmem
  · cases ht
  · exact not_mem_inline ht hus hmem

theorem beside_of_sentence {p : Part} {xs zs : List Lexeme} {t : Lexeme} {ss : List Stmt}
    (h : Sentence p (xs ++ t :: zs) ss) (ht : t.token.isSeparator) : Beside p xs t zs := by
  have hone {u : Lexeme} {xs zs : List Lexeme} (h : [u] = xs ++ t :: zs) :
      xs = [] ∧ u = t ∧ zs = [] := by
    cases xs <;> simp_all
  have hclosing {u : Lexeme} {w : Word} {xs zs : List Lexeme} (hu : u.token = .word w)
      (h : [u] = xs ++ t :: zs) : False := by
    obtain ⟨-, rfl, -⟩ := hone h
    rw [hu] at ht
    cases ht
  generalize hws : xs ++ t :: zs = ws at h
  induction h generalizing xs zs with
  | simple hs => exact absurd (hws ▸ by simp) (not_mem_inline ht hs.all_isInline)
  | @cond t₀ hs ys ns c yes no hc hy hn ihy ihn =>
    rcases mem_parts _ hws with ⟨zs, hfront, rfl⟩ | ⟨xs, rfl, rfl⟩
    · rcases mem_parts _ hfront.symm with ⟨zs', hhead, -⟩ | ⟨xs, rfl, rfl⟩
      · obtain ⟨us, hts, hus⟩ := hc.all_isInline
        exact absurd (hhead ▸ by simp) (not_mem_head ht hts hus)
      · exact (ihy rfl).lift _ _ fun n us vs hys hcut => ⟨_, .first (hys ▸ hc) hcut hn⟩
    · exact (ihn rfl).behind _ fun n us vs hcut => ⟨_, .second hc hy hcut⟩
  | @loop t₀ close hs ys kind body hh hy hclose ih =>
    rcases mem_parts _ hws with ⟨zs, hfront, rfl⟩ | ⟨xs, rfl, hend⟩
    · rcases mem_parts _ hfront.symm with ⟨zs', hhead, -⟩ | ⟨xs, rfl, rfl⟩
      · obtain ⟨w, us, hts, -, hus⟩ := hh.all_isInline
        exact absurd (hhead ▸ by simp) (not_mem_head ht hts hus)
      · exact (ih rfl).lift _ _ fun n us vs hys hcut => ⟨_, .loop (hys ▸ hh) hcut hclose⟩
    · exact (hclosing hclose hend).elim
  | nil => simp at hws
  | @separator t₀ ts ss ht₀ hs ih =>
    rcases mem_parts [t₀] hws with ⟨zs, hfirst, rfl⟩ | ⟨xs, rfl, rfl⟩
    · obtain ⟨rfl, rfl, rfl⟩ := hone hfirst
      exact ⟨⟨0, .between .nil (.separator ht hs)⟩, 0, .between (.separator ht .nil) hs⟩
    · exact (ih rfl).behind [t₀] fun n us vs hcut => ⟨n, hcut.append (.separator ht₀ .nil)⟩
  | @cons t₀ us ts s ss hs ht₀ hts ihs ih =>
    rcases mem_parts _ hws with ⟨zs, rfl, rfl⟩ | ⟨xs, rfl, hrest⟩
    · exact (ihs rfl).lift [] _ fun n us vs _ hcut => ⟨n, .inside .nil hcut ht₀ hts⟩
    · rcases mem_parts [t₀] hrest.symm with ⟨zs, hfirst, rfl⟩ | ⟨xs, rfl, rfl⟩
      · obtain ⟨rfl, rfl, rfl⟩ := hone hfirst
        rw [List.append_nil]
        exact ⟨⟨0, .inside .nil (.behind hs) ht hts⟩, 0, .between (.cons hs ht .nil) hts⟩
      · rw [← List.append_assoc]
        exact (ih rfl).behind _ fun n us vs hcut => ⟨n, hcut.append (.cons hs ht₀ .nil)⟩
  | close hclose => exact (hclosing hclose hws.symm).elim
  | @otherwise t₀ close ns no ht₀ hs hclose ih =>
    rcases mem_parts _ hws with ⟨zs, hfront, rfl⟩ | ⟨xs, rfl, hend⟩
    · rcases mem_parts [t₀] hfront.symm with ⟨zs, hfirst, rfl⟩ | ⟨xs, rfl, rfl⟩
      · exact (hclosing ht₀ hfirst).elim
      · exact (ih rfl).lift [t₀] _ fun n us vs _ hcut => ⟨n, .otherwise ht₀ hcut hclose⟩
    · exact (hclosing hclose hend).elim
  | closed hs ih =>
    obtain rfl := hws
    have h := (ih rfl).lift [] [] fun n us vs _ hcut => ⟨n, .upper hcut (.closed .nil)⟩
    rwa [List.append_nil] at h
  | @unclosed ts us ss s hts hs ih ihs =>
    rcases mem_parts _ hws with ⟨zs, rfl, rfl⟩ | ⟨xs, rfl, rfl⟩
    · exact (ih rfl).lift [] _ fun n us vs _ hcut => ⟨n, .upper hcut (.unclosed .nil hs)⟩
    · exact (ihs rfl).behind _ fun n us vs hcut => ⟨n, .last hts hcut⟩

theorem Cut.nest {p : Part} {n : Nat} {us vs : List Lexeme} (h : Cut p n us vs)
    (opened : List Opened) :
    ∃ os, (us.map Lexeme.token).foldlM Token.nest (p.inside opened) = some os ∧
      os.length = n + (p.inside opened).length := by
  induction h generalizing opened with
  | behind hs => exact ⟨opened, hs.nest opened, by simp [Part.inside]⟩
  | loop hh _ _ ih =>
    obtain ⟨os, hnest, hlength⟩ := ih (.other :: opened)
    rw [List.map_append]
    refine ⟨os, nest_append (hh.nest opened) hnest, ?_⟩
    simp [Part.inside] at hlength ⊢
    omega
  | first hc _ _ ih =>
    obtain ⟨os, hnest, hlength⟩ := ih (.choice :: opened)
    rw [List.map_append]
    refine ⟨os, nest_append (hc.nest opened) hnest, ?_⟩
    simp [Part.inside] at hlength ⊢
    omega
  | second hc hy _ ih =>
    obtain ⟨os, hnest, hlength⟩ := ih opened
    rw [List.map_append, List.map_append]
    refine ⟨os, nest_append (nest_append (hc.nest opened) (hy.nest (.choice :: opened))) hnest, ?_⟩
    simp [Part.inside] at hlength ⊢
    omega
  | @otherwise t _ _ _ _ ht _ _ ih =>
    obtain ⟨os, hnest, hlength⟩ := ih (.other :: opened)
    have helse : [t.token].foldlM Token.nest (.choice :: opened) = some (.other :: opened) := by
      rw [ht]
      rfl
    exact ⟨os, nest_append helse hnest, hlength⟩
  | between hs _ => exact ⟨opened, hs.nest opened, by simp [Part.inside]⟩
  | inside hxs _ _ _ ih | last hxs _ ih =>
    obtain ⟨os, hnest, hlength⟩ := ih opened
    rw [List.map_append]
    exact ⟨os, nest_append (hxs.nest opened) hnest, hlength⟩
  | upper _ _ ih => exact ih opened

/-! ## Whole programs -/

/-- A point between two statements of a program, in `n` of its blocks. Comments and blanks may stand
around it. -/
structure Boundary (n : Nat) (us vs : List Lexeme) : Prop where
  before_eof : ∀ t ∈ us, t.token ≠ .eof
  cut : Cut .program n (significant us) (significant vs)

theorem Boundary.parse_ok {n : Nat} {us vs : List Lexeme} (h : Boundary n us vs) :
    ∃ ss, parse (us ++ vs) = .ok ss := by
  obtain ⟨ss, hs⟩ := h.cut.sentence
  rw [← significant_append h.before_eof] at hs
  exact ⟨ss, parse_of_sentence hs⟩

theorem Boundary.parse_unclosed {n : Nat} {us vs : List Lexeme} (h : Boundary (n + 1) us vs)
    (p : Span) : parse (us ++ [⟨p, .eof⟩]) = .error (Cause.missingEnd.inSpan p) := by
  have hrest : significant (us ++ [⟨p, .eof⟩]) = significant us := by
    rw [significant_append h.before_eof]
    simp [significant]
  have hfind : [⟨p, .eof⟩].find? (·.token = .eof) = some (⟨p, .eof⟩ : Lexeme) := rfl
  have hend : inputEnd (us ++ [⟨p, .eof⟩]) = p := inputEnd_append h.before_eof hfind
  rw [parse_eq hrest hend]
  exact Parser.bind_fails (Parser.unfinished_of_cut h.cut ..) _

theorem exists_boundary {us vs : List Lexeme} {ss : List Stmt} (h : parse (us ++ vs) = .ok ss)
    (hus : ∀ t ∈ us, t.token ≠ .eof)
    (hbeside : (∃ t ∈ (significant us).getLast?, t.token.isSeparator) ∨
      ∃ t ∈ (significant vs).head?, t.token.isSeparator) : ∃ n, Boundary n us vs := by
  have hs := sentence_of_parse h
  rw [significant_append hus] at hs
  rcases hbeside with ⟨t, hlast, ht⟩ | ⟨t, hhead, ht⟩
  · obtain ⟨xs, hxs⟩ := List.getLast?_eq_some_iff.1 hlast
    rw [hxs, List.append_assoc] at hs
    obtain ⟨-, n, hcut⟩ := beside_of_sentence hs ht
    exact ⟨n, hus, hxs ▸ hcut⟩
  · obtain ⟨zs, hzs⟩ := List.head?_eq_some_iff.1 hhead
    rw [hzs] at hs
    obtain ⟨⟨n, hcut⟩, -⟩ := beside_of_sentence hs ht
    exact ⟨n, hus, hzs ▸ hcut⟩

theorem Boundary.pos_of_open {n : Nat} {us vs : List Lexeme} (h : Boundary n us vs) {o : Opened}
    {opened : List Opened}
    (hopen : ((significant us).map Lexeme.token).foldlM Token.nest [] = some (o :: opened)) :
    n ≠ 0 := by
  obtain ⟨os, hnest, hlength⟩ := h.cut.nest []
  obtain rfl := Option.some.inj (hopen.symm.trans hnest)
  simp [Part.inside] at hlength
  omega

theorem parse_behind {us : List Lexeme} {ss : List Stmt} {q : Span} {br : Lexeme}
    (h : parse (us ++ [⟨q, .eof⟩]) = .ok ss) (hus : ∀ t ∈ us, t.token ≠ .eof)
    (hbr : br.token = .newline) (vs : List Lexeme) :
    ∃ stop n hn, parse (us ++ br :: vs) =
      Parser.block stop n ss.toArray (significant vs) hn >>= fun r =>
        r.value.2.program r.value.1 := by
  have hprogram : Sentence .block (significant us ++ [br]) ss := by
    have hs := sentence_of_parse h
    rw [significant_append hus, show significant [⟨q, .eof⟩] = [] from rfl, List.append_nil] at hs
    exact hs.append_separator (by rw [hbr]; rfl)
  have hrest : significant (us ++ br :: vs) = significant us ++ [br] ++ significant vs := by
    rw [significant_append hus]
    simp [significant, hbr, Token.isTrivia]
  rw [parse_eq hrest rfl]
  obtain ⟨hn, hblock⟩ := Parser.block_eq_of_sentence hprogram #[]
  rw [Array.empty_append] at hblock
  exact ⟨_, _, hn, congrArg (· >>= _) hblock⟩

/-- Points between statements: inside a block an `End` is missing there, and behind the whole program
an `End` or `Else` is stray. Each is said of the right place. A point beside a separator is a boundary
of the statements, and it lies in a block if the words before it leave one open. -/
theorem mismatched_blocks_in_place :
    (∀ n us vs, Boundary (n + 1) us vs → (∃ ss, parse (us ++ vs) = .ok ss) ∧
      ∀ p, parse (us ++ [⟨p, .eof⟩]) = .error (Cause.missingEnd.inSpan p)) ∧
    (∀ us vs ss o opened, parse (us ++ vs) = .ok ss → (∀ t ∈ us, t.token ≠ .eof) →
      ((∃ t ∈ (significant us).getLast?, t.token.isSeparator) ∨
        ∃ t ∈ (significant vs).head?, t.token.isSeparator) →
      ((significant us).map Lexeme.token).foldlM Token.nest [] = some (o :: opened) →
      ∃ n, Boundary (n + 1) us vs) ∧
    ∀ us ss q, parse (us ++ [⟨q, .eof⟩]) = .ok ss → (∀ t ∈ us, t.token ≠ .eof) →
      ∀ (br : Lexeme) p w, br.token = .newline →
        parse (us ++ br :: ⟨p, .word .endWord⟩ :: w) = .error (Cause.endWithoutBlock.inSpan p) ∧
        parse (us ++ br :: ⟨p, .word .elseWord⟩ :: w) = .error (Cause.elseWithoutIf.inSpan p) := by
  refine ⟨fun n us vs h => ⟨h.parse_ok, h.parse_unclosed⟩, ?_, ?_⟩
  · intro us vs ss o opened hparse hus hbeside hopen
    obtain ⟨n, h⟩ := exists_boundary hparse hus hbeside
    obtain ⟨n, rfl⟩ := Nat.exists_eq_succ_of_ne_zero (h.pos_of_open hopen)
    exact ⟨n, h⟩
  · intro us ss q hparse hus br p w hbr
    have hsignificant : ∀ word, significant (⟨p, .word word⟩ :: w) =
        ⟨p, .word word⟩ :: significant w := by
      simp [significant, Token.isTrivia]
    constructor
    · obtain ⟨stop, n, hn, heq⟩ := parse_behind hparse hus hbr (⟨p, .word .endWord⟩ :: w)
      rw [heq]
      simp only [hsignificant]
      exact (Parser.end_yields rfl).fails fun _ => rfl
    · obtain ⟨stop, n, hn, heq⟩ := parse_behind hparse hus hbr (⟨p, .word .elseWord⟩ :: w)
      rw [heq]
      simp only [hsignificant]
      exact (Parser.else_yields rfl).fails fun _ => rfl

theorem mismatched_blocks_in_place_nested :
    let us : List Lexeme := [⟨⟨1, 0, 5⟩, .word .whileWord⟩, ⟨⟨1, 6, 7⟩, .var 'A'⟩,
      ⟨⟨1, 7, 8⟩, .newline⟩, ⟨⟨2, 0, 2⟩, .word .ifWord⟩, ⟨⟨2, 2, 3⟩, .whitespace 1⟩,
      ⟨⟨2, 3, 4⟩, .var 'B'⟩, ⟨⟨2, 4, 5⟩, .newline⟩, ⟨⟨3, 0, 1⟩, .var 'C'⟩,
      ⟨⟨3, 1, 3⟩, .operator .increment⟩]
    let vs : List Lexeme := [⟨⟨3, 3, 4⟩, .newline⟩, ⟨⟨4, 0, 3⟩, .word .endWord⟩,
      ⟨⟨4, 3, 4⟩, .newline⟩, ⟨⟨5, 0, 3⟩, .word .endWord⟩, ⟨⟨5, 3, 3⟩, .eof⟩]
    (∀ p, parse (us ++ [⟨p, .eof⟩]) = .error (Cause.missingEnd.inSpan p)) ∧
    ∀ p w, parse (us ++ vs.dropLast ++ ⟨⟨5, 3, 4⟩, .newline⟩ :: ⟨p, .word .endWord⟩ :: w) =
      .error (Cause.endWithoutBlock.inSpan p) := by
  intro us vs
  obtain ⟨hcut, hbeside, hstray⟩ := mismatched_blocks_in_place
  have hparse : parse (us ++ vs) = .ok [.loop ⟨1, 0, 5⟩ (.whileTrue (.var 'A'))
      [.cond ⟨2, 0, 2⟩ (.var 'B') [.effect ⟨3, 0, 1⟩ (.increment (.var 'C'))] []]] := by cbv
  constructor
  · obtain ⟨n, hboundary⟩ := hbeside us vs _ .choice [.other] hparse (by decide)
      (.inr ⟨_, rfl, rfl⟩) rfl
    exact (hcut n us vs hboundary).2
  · intro p w
    exact (hstray (us ++ vs.dropLast) _ ⟨5, 3, 3⟩ hparse (by decide) ⟨⟨5, 3, 4⟩, .newline⟩ p w rfl).1

end Handheld
