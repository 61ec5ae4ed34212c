import Mathlib.Data.List.Forall2
import SmallLisp.Proofs.Sequence

/-! Streams of tokens under whatever is done with them. Looking at the next token, taking it, and reading one form or
all of them can follow one another in any order, and may fail. Each of these operations takes tokens from the front
of those that are left, as many as it needs and no more; the fault behind the last token, if there is one, is met by
the first operation that needs the token in its place, and by no other. -/

namespace SmallLisp

namespace TokenStream

/-! ### Single tokens -/

/-- The stream with something else behind its tokens. -/
def withFault (s : TokenStream) (fault : Option Error) : TokenStream := { s with fault }

/-- What is left when some tokens have been taken one after the other. -/
def advances : Nat → TokenStream → TokenStream
  | 0, s => s
  | n + 1, s => advances n s.advance.2

section

variable {s s' : TokenStream} {token : Token} {rest : List Token}

theorem restart_unread (s : TokenStream) : s.restart s.unread = s := restart_append s s.buffer

theorem unread_advance (s : TokenStream) : s.advance.2.unread = s.unread.tail := by
  cases h : s.unread with
  | nil => rw [advance_nil h]; rfl
  | cons token rest => rw [advance_cons h]; exact unread_restart s rest

theorem advances_eq {used : List Token} (h : s.unread = used ++ rest) :
    s.advances used.length = s.restart rest := by
  induction used generalizing s with
  | nil =>
      have hrest : rest = s.unread := h.symm
      rw [hrest, restart_unread]
      rfl
  | cons token used ih =>
      have hrest : rest.length ≤ (used ++ rest).length := by
        rw [List.length_append]
        exact Nat.le_add_left _ _
      have hadvance : s.advance = (.ok (some token), s.restart (used ++ rest)) := advance_cons h
      rw [List.length_cons, advances, hadvance, ih (unread_restart s _), restart_restart hrest]

/-! ### What is buffered -/

/-- If there was one token in the buffer at most, there is none behind the first token that is taken. -/
theorem buffer_restart (h : s.buffer.length ≤ 1) (hrest : rest.length < s.unread.length) :
    (s.restart rest).buffer = [] := by
  rw [unread, List.length_append] at hrest
  rw [restart_of_le (by omega)]

/-- To hold the next token, no more than this one token has to be in the buffer. -/
theorem buffer_hold (h : s.buffer.length ≤ 1) : s.hold.buffer = s.unread.head?.toList := by
  obtain ⟨_ | ⟨token, _ | ⟨token', buffer⟩⟩, source, fault⟩ := s
  · cases source <;> rfl
  · rfl
  · exact absurd h (by simp)

theorem hold_withFault (s : TokenStream) (fault : Option Error) :
    (s.withFault fault).hold = s.hold.withFault fault := by
  obtain ⟨_ | _, _ | _, _⟩ := s <;> rfl

/-! ### Reading is advancing -/

/-- Tokens are taken one after the other and put into the open forms, up to the token that completes the outermost
one, or to one that is at fault, or to the end of the stream. -/
inductive Pulls (limits : Limits) : List OpenForm → TokenStream → Except Error Value → TokenStream → Prop
  | complete {opened : List OpenForm} {s s' : TokenStream} {token : Token} {v : Value} :
      s.advance = (.ok (some token), s') → Progress.accept limits opened token = .ok (.complete v) →
        Pulls limits opened s (.ok v) s'
  | within {opened opened' : List OpenForm} {s s₁ s' : TokenStream} {token : Token} {result : Except Error Value} :
      s.advance = (.ok (some token), s₁) → Progress.accept limits opened token = .ok (.within opened') →
        Pulls limits opened' s₁ result s' → Pulls limits opened s result s'
  | fault {opened : List OpenForm} {s s' : TokenStream} {token : Token} {e : Error} :
      s.advance = (.ok (some token), s') → Progress.accept limits opened token = .error e →
        Pulls limits opened s (.error e) s'
  | missing {opened : List OpenForm} {s s' : TokenStream} :
      s.advance = (.ok none, s') → Pulls limits opened s (.error (.read (OpenForm.missing opened))) s'
  | broken {opened : List OpenForm} {s s' : TokenStream} {e : Error} :
      s.advance = (.error e, s') → Pulls limits opened s (.error e) s'

theorem resume_cons {limits : Limits} {opened opened' : List OpenForm} (h : s.unread = token :: rest)
    (haccept : Progress.accept limits opened token = .ok (.within opened')) :
    s.resume limits opened = (s.restart rest).resume limits opened' := by
  rw [resume, resume, unread_restart, fault_restart, h, readForm, haccept]
  dsimp only
  cases hread : readForm limits opened' rest with
  | ok result =>
      obtain ⟨v, behind⟩ := result
      dsimp only
      rw [restart_restart (Nat.le_of_lt (readForm_length_lt hread))]
  | error halt =>
      cases halt with
      | fault e behind =>
          obtain ⟨_, hsuffix⟩ := suffix_of_readForm_fault hread
          dsimp only
          rw [restart_restart (Nat.le_of_lt hsuffix.length_le)]
      | outOfTokens opened => rfl

theorem pulls_resume (limits : Limits) (opened : List OpenForm) (s : TokenStream) :
    Pulls limits opened s (s.resume limits opened).1 (s.resume limits opened).2 := by
  generalize hunread : s.unread = tokens
  induction tokens generalizing opened s with
  | nil =>
      have hadvance := advance_nil hunread
      have hresume : s.resume limits opened = (.error (s.fault.getD (.read (OpenForm.missing opened))), ended) := by
        rw [resume, hunread]
        rfl
      rw [hresume]
      cases hfault : s.fault with
      | none =>
          rw [hfault] at hadvance
          exact .missing hadvance
      | some e =>
          rw [hfault] at hadvance
          exact .broken hadvance
  | cons token tokens ih =>
      have hadvance := advance_cons hunread
      cases haccept : Progress.accept limits opened token with
      | error e =>
          have hresume : s.resume limits opened = (.error e, s.restart tokens) := by
            rw [resume, hunread, readForm, haccept]
          rw [hresume]
          exact .fault hadvance haccept
      | ok p =>
          cases p with
          | complete v =>
              have hresume : s.resume limits opened = (.ok v, s.restart tokens) := by
                rw [resume, hunread, readForm, haccept]
              rw [hresume]
              exact .complete hadvance haccept
          | within opened' =>
              rw [resume_cons hunread haccept]
              exact .within hadvance haccept (ih opened' (s.restart tokens) (unread_restart s tokens))

end

end TokenStream

open TokenStream

/-! ### The operations -/

/-- What can be done with a stream. -/
inductive StreamOp
  | peek | advance | nextForm | form | forms
  deriving DecidableEq, Repr

/-- What an operation returns: a token or a form, if there is one, or all forms that are left. -/
inductive StreamReply
  | token (token? : Option Token)
  | form (form? : Option Value)
  | forms (vs : List Value)

/-- Does something with a stream. -/
def StreamOp.run (limits : Limits) (op : StreamOp) (s : TokenStream) : Except Error StreamReply × TokenStream :=
  match op with
  | .peek => (s.peek.1.map .token, s.peek.2)
  | .advance => (s.advance.1.map .token, s.advance.2)
  | .nextForm => ((s.nextForm? limits).1.map .form, (s.nextForm? limits).2)
  | .form => ((s.form limits).1.map fun v => .form (some v), (s.form limits).2)
  | .forms => ((s.forms limits).2.1.elim (.ok (.forms (s.forms limits).1)) .error, (s.forms limits).2.2)

/-- What an operation comes to, as far as the tokens that are left decide it: a result with the next token held, a
result and the tokens that are then left, or the place behind the last token, with the result that is right if no
fault is there. -/
inductive StreamEffect
  | held (result : Except Error StreamReply)
  | within (result : Except Error StreamReply) (rest : List Token)
  | atEnd (result : Except Error StreamReply)

/-- The effect on a stream. -/
def StreamEffect.apply (s : TokenStream) : StreamEffect → Except Error StreamReply × TokenStream
  | held result => (result, s.hold)
  | within result rest => (result, s.restart rest)
  | atEnd result => (s.fault.elim result .error, ended)

theorem StreamEffect.apply_atEnd {s : TokenStream} {result : Except Error StreamReply} (h : s.fault = none) :
    (atEnd result).apply s = (result, ended) := by
  rw [apply, h]
  rfl

namespace StreamOp

variable {limits : Limits} {s : TokenStream}

/-- The effect of an operation where these tokens are left. -/
def effect (limits : Limits) (tokens : List Token) : StreamOp → StreamEffect
  | .peek =>
    match tokens with
    | token :: _ => .held (.ok (.token (some token)))
    | [] => .atEnd (.ok (.token none))
  | .advance =>
    match tokens with
    | token :: rest => .within (.ok (.token (some token))) rest
    | [] => .atEnd (.ok (.token none))
  | .nextForm =>
    match readForm limits [] tokens with
    | .ok (v, rest) => .within (.ok (.form (some v))) rest
    | .error (.fault e rest) => .within (.error e) rest
    | .error (.outOfTokens []) => .atEnd (.ok (.form none))
    | .error (.outOfTokens opened) => .atEnd (.error (.read (OpenForm.missing opened)))
  | .form =>
    match readForm limits [] tokens with
    | .ok (v, rest) => .within (.ok (.form (some v))) rest
    | .error (.fault e rest) => .within (.error e) rest
    | .error (.outOfTokens opened) => .atEnd (.error (.read (OpenForm.missing opened)))
  | .forms =>
    match readForms limits [] tokens with
    | (_, .fault e rest) => .within (.error e) rest
    | (vs, .outOfTokens []) => .atEnd (.ok (.forms vs))
    | (_, .outOfTokens opened) => .atEnd (.error (.read (OpenForm.missing opened)))

/-- The tokens that are left and the fault behind them decide what an operation does. -/
theorem run_eq (op : StreamOp) (s : TokenStream) : op.run limits s = (op.effect limits s.unread).apply s := by
  have hatEnd : ∀ result, (StreamEffect.atEnd result).apply s = (s.fault.elim result .error, ended) := fun _ => rfl
  cases op with
  | peek =>
      cases hunread : s.unread with
      | nil =>
          rw [run, peek_nil hunread, effect, hatEnd]
          cases s.fault <;> rfl
      | cons token rest => rw [run, peek_cons hunread]; rfl
  | advance =>
      cases hunread : s.unread with
      | nil =>
          rw [run, advance_nil hunread, effect, hatEnd]
          cases s.fault <;> rfl
      | cons token rest => rw [run, advance_cons hunread]; rfl
  | nextForm =>
      rw [run, nextForm?_eq, effect]
      cases readForm limits [] s.unread with
      | ok result => rfl
      | error halt =>
          rcases halt with _ | _ | _
          · rfl
          all_goals
            dsimp only
            rw [hatEnd]
            cases s.fault <;> rfl
  | form =>
      rw [run, TokenStream.form, resume, effect]
      cases readForm limits [] s.unread with
      | ok result => rfl
      | error halt =>
          rcases halt with _ | _
          · rfl
          · dsimp only
            rw [hatEnd]
            cases s.fault <;> rfl
  | forms =>
      rw [run, TokenStream.forms, effect]
      rcases readForms limits [] s.unread with ⟨vs, _ | _ | _⟩
      · rfl
      · rfl
      · dsimp only
        rw [hatEnd]
        cases s.fault <;> rfl

end StreamOp

/-! ### What is taken -/

section

variable {limits : Limits} {tokens rest : List Token} {e : Error}

theorem nil_of_outOfTokens (h : readForm limits [] tokens = .error (.outOfTokens [])) : tokens = [] := by
  cases Begun.nil.readForm_outOfTokens h
  rfl

/-- Forms that are read one after the other take the tokens in front of the place where reading comes to a halt. -/
theorem exists_pieces {vs : List Value} {halt : Halt} (h : readForms limits [] tokens = (vs, halt)) :
    ∃ pieces rest, tokens = pieces.flatten ++ rest ∧ List.Forall₂ Form pieces vs ∧
      readForm limits [] rest = .error halt := by
  induction hlength : tokens.length using Nat.strongRecOn generalizing tokens vs with
  | ind n ih =>
      subst hlength
      rw [readForms_eq] at h
      cases hread : readForm limits [] tokens with
      | error halt' =>
          rw [hread] at h
          cases h
          exact ⟨[], tokens, rfl, .nil, hread⟩
      | ok result =>
          obtain ⟨v, behind⟩ := result
          rw [hread] at h
          cases h
          obtain ⟨used, rfl, hform⟩ := Begun.nil.readForm hread
          obtain ⟨pieces, rest, hbehind, hforms, hhalt⟩ := ih _ (readForm_length_lt hread) rfl rfl
          exact ⟨used :: pieces, rest, by rw [hbehind, List.flatten_cons, List.append_assoc],
            .cons hform hforms, hhalt⟩

/-- What is behind a form makes no difference to it. -/
theorem readForm_local {used : List Token} {v : Value} (h : readForm limits [] (used ++ rest) = .ok (v, rest))
    (more : List Token) : readForm limits [] (used ++ more) = .ok (v, more) := by
  rw [readForm_append] at h ⊢
  cases hread : readForm limits [] used with
  | ok result =>
      obtain ⟨w, behind⟩ := result
      rw [hread] at h
      obtain ⟨rfl, hbehind⟩ := Prod.mk.inj (Except.ok.inj h)
      rw [List.append_left_eq_self.mp hbehind]
      rfl
  | error halt =>
      rw [hread] at h
      cases halt with
      | fault e behind => cases h
      | outOfTokens opened => exact absurd (readForm_length_lt h) (Nat.lt_irrefl _)

end

/-! ### What a single operation does -/

/-- Something that was done with a stream. -/
structure StreamEvent where
  op : StreamOp
  before : TokenStream
  result : Except Error StreamReply
  after : TokenStream

def StreamOp.event (limits : Limits) (op : StreamOp) (s : TokenStream) : StreamEvent :=
  ⟨op, s, (op.run limits s).1, (op.run limits s).2⟩

/-- What was read is made of exactly these tokens. -/
inductive StreamReply.MadeOf : StreamReply → List Token → Prop
  | none : MadeOf (.form none) []
  | form {used : List Token} {v : Value} : Form used v → MadeOf (.form (some v)) used
  | forms {pieces : List (List Token)} {vs : List Value} : List.Forall₂ Form pieces vs →
      MadeOf (.forms vs) pieces.flatten

/-- The operation takes from the stream what it should, and no more. -/
structure StreamEvent.Sound (limits : Limits) (event : StreamEvent) : Prop where
  /-- The tokens that are left are the last of those that were left before. -/
  suffix : event.after.unread <:+ event.before.unread
  /-- With one token in the buffer at most, only behind a look at the next token is a token there, and it is that
  one. -/
  buffer : event.before.buffer.length ≤ 1 →
    event.after.buffer = if event.op = .peek then event.before.unread.head?.toList else []
  /-- Looking at the next token takes none, and comes to what taking it would come to. -/
  peek : event.op = .peek → event.after.unread = event.before.unread ∧
    event.result = (StreamOp.advance.run limits event.before).1 ∧ ∀ reply, event.result = .ok reply →
      StreamOp.advance.run limits event.after = StreamOp.advance.run limits event.before
  /-- Taking a token takes the next one, or none if there is no token and no fault left. -/
  advance : event.op = .advance → event.after.unread = event.before.unread.tail ∧
    (event.before.unread ≠ [] ∨ event.before.fault = none →
      event.result = .ok (.token event.before.unread.head?))
  /-- Reading takes the tokens that what was read is made of, as if one after the other were taken. -/
  parse : event.op ≠ .peek → event.op ≠ .advance → ∀ reply, event.result = .ok reply →
    ∃ used, reply.MadeOf used ∧ event.before.unread = used ++ event.after.unread ∧
      event.after = event.before.advances used.length
  /-- A form is read by taking tokens up to the one that completes it, so what is behind it has no effect. -/
  lazily : ∀ v, event.result = .ok (.form (some v)) → Pulls limits [] event.before (.ok v) event.after ∧
    ∀ used more fault, event.before.unread = used ++ event.after.unread →
      event.op.run limits ⟨[], used ++ more, fault⟩ = (event.result, ⟨[], more, fault⟩)

/-- An operation keeps it that there is one token in the buffer at most. -/
theorem StreamEvent.Sound.buffered {limits : Limits} {event : StreamEvent} (h : event.Sound limits)
    (hbuffer : event.before.buffer.length ≤ 1) : event.after.buffer.length ≤ 1 := by
  rw [h.buffer hbuffer]
  split
  · cases event.before.unread <;> simp
  · exact Nat.zero_le 1

namespace StreamOp

variable {limits : Limits} {op : StreamOp} {s : TokenStream}

/-- Everything that operations can come to where these tokens are left. -/
inductive HasEffect (limits : Limits) (tokens : List Token) : StreamOp → StreamEffect → Prop
  | peek {token : Token} {rest : List Token} : tokens = token :: rest →
      HasEffect limits tokens .peek (.held (.ok (.token (some token))))
  | advance {token : Token} {rest : List Token} : tokens = token :: rest →
      HasEffect limits tokens .advance (.within (.ok (.token (some token))) rest)
  | noToken {op : StreamOp} : op = .peek ∨ op = .advance → tokens = [] →
      HasEffect limits tokens op (.atEnd (.ok (.token none)))
  | form {op : StreamOp} {v : Value} {rest : List Token} : op = .nextForm ∨ op = .form →
      readForm limits [] tokens = .ok (v, rest) → HasEffect limits tokens op (.within (.ok (.form (some v))) rest)
  | noForm : tokens = [] → HasEffect limits tokens .nextForm (.atEnd (.ok (.form none)))
  | forms {pieces : List (List Token)} {vs : List Value} : tokens = pieces.flatten → List.Forall₂ Form pieces vs →
      HasEffect limits tokens .forms (.atEnd (.ok (.forms vs)))
  | fault {op : StreamOp} {e : Error} {behind rest : List Token} : op ≠ .peek → behind <:+ tokens →
      readForm limits [] behind = .error (.fault e rest) → HasEffect limits tokens op (.within (.error e) rest)
  | missing {op : StreamOp} {opened : List OpenForm} : op ≠ .peek →
      HasEffect limits tokens op (.atEnd (.error (.read (OpenForm.missing opened))))

theorem hasEffect (limits : Limits) (tokens : List Token) (op : StreamOp) :
    HasEffect limits tokens op (op.effect limits tokens) := by
  cases op with
  | peek =>
      cases tokens with
      | nil => exact .noToken (.inl rfl) rfl
      | cons token rest => exact .peek rfl
  | advance =>
      cases tokens with
      | nil => exact .noToken (.inr rfl) rfl
      | cons token rest => exact .advance rfl
  | nextForm =>
      rw [effect]
      cases hread : readForm limits [] tokens with
      | ok result => exact .form (.inl rfl) hread
      | error halt =>
          rcases halt with _ | _ | _
          · exact .fault nofun (List.suffix_refl tokens) hread
          · exact .noForm (nil_of_outOfTokens hread)
          · exact .missing nofun
  | form =>
      rw [effect]
      cases hread : readForm limits [] tokens with
      | ok result => exact .form (.inr rfl) hread
      | error halt =>
          cases halt with
          | fault => exact .fault nofun (List.suffix_refl tokens) hread
          | outOfTokens => exact .missing nofun
  | forms =>
      rw [effect]
      rcases hread : readForms limits [] tokens with ⟨vs, halt⟩
      obtain ⟨pieces, behind, htokens, hforms, hhalt⟩ := exists_pieces hread
      rcases halt with _ | _ | _
      · exact .fault nofun ⟨pieces.flatten, htokens.symm⟩ hhalt
      · rw [nil_of_outOfTokens hhalt, List.append_nil] at htokens
        exact .forms htokens hforms
      · exact .missing nofun

/-- What an operation does, by its effect. -/
theorem exists_hasEffect (limits : Limits) (op : StreamOp) (s : TokenStream) :
    ∃ effect, HasEffect limits s.unread op effect ∧ op.run limits s = effect.apply s :=
  ⟨op.effect limits s.unread, hasEffect limits s.unread op, run_eq op s⟩

theorem suffix_run (limits : Limits) (op : StreamOp) (s : TokenStream) : (op.run limits s).2.unread <:+ s.unread := by
  obtain ⟨effect, heffect, hrun⟩ := exists_hasEffect limits op s
  rw [hrun]
  cases heffect with
  | peek => exact (unread_hold s).symm ▸ List.suffix_refl s.unread
  | advance hunread =>
      rw [StreamEffect.apply, unread_restart, hunread]
      exact List.suffix_cons _ _
  | form hop hread =>
      rw [StreamEffect.apply, unread_restart]
      obtain ⟨used, hused, -⟩ := Begun.nil.readForm hread
      exact ⟨used, hused.symm⟩
  | fault hop hbehind hread =>
      rw [StreamEffect.apply, unread_restart]
      obtain ⟨token, hsuffix⟩ := suffix_of_readForm_fault hread
      exact ((List.suffix_cons token _).trans hsuffix).trans hbehind
  | noToken | noForm | forms | missing => exact List.nil_suffix

theorem buffer_run (limits : Limits) (op : StreamOp) (h : s.buffer.length ≤ 1) :
    (op.run limits s).2.buffer = if op = .peek then s.unread.head?.toList else [] := by
  obtain ⟨effect, heffect, hrun⟩ := exists_hasEffect limits op s
  rw [hrun]
  cases heffect with
  | peek => exact buffer_hold h
  | advance hunread => exact buffer_restart h (by rw [hunread]; exact Nat.lt_succ_self _)
  | noToken hop hunread =>
      rw [hunread]
      rcases hop with rfl | rfl <;> rfl
  | form hop hread =>
      rw [if_neg (by rcases hop with rfl | rfl <;> nofun)]
      exact buffer_restart h (readForm_length_lt hread)
  | noForm | forms => rfl
  | fault hop hbehind hread =>
      rw [if_neg hop]
      obtain ⟨token, hsuffix⟩ := suffix_of_readForm_fault hread
      exact buffer_restart h (hsuffix.trans hbehind).length_le
  | missing hop => exact (if_neg hop).symm

theorem advance_run_peek (limits : Limits) (s : TokenStream) :
    (peek.run limits s).2.unread = s.unread ∧ (peek.run limits s).1 = (advance.run limits s).1 ∧
      ∀ reply, (peek.run limits s).1 = .ok reply → advance.run limits (peek.run limits s).2 = advance.run limits s := by
  cases hunread : s.unread with
  | nil =>
      rw [run, run, peek_nil hunread, advance_nil hunread]
      refine ⟨rfl, rfl, fun reply hreply => ?_⟩
      cases hfault : s.fault with
      | none => rfl
      | some e =>
          rw [hfault] at hreply
          cases hreply
  | cons token rest =>
      have hhold : s.hold.unread = token :: rest := (unread_hold s).trans hunread
      have hrest : rest.length < s.unread.length := by
        rw [hunread]
        exact Nat.lt_succ_self _
      rw [run, run, peek_cons hunread, advance_cons hunread]
      refine ⟨hhold, rfl, fun reply _ => ?_⟩
      rw [run, advance_cons hhold, hold_restart hrest]

theorem advance_run (limits : Limits) (s : TokenStream) :
    (advance.run limits s).2.unread = s.unread.tail ∧
      (s.unread ≠ [] ∨ s.fault = none → (advance.run limits s).1 = .ok (.token s.unread.head?)) := by
  refine ⟨unread_advance s, fun hleft => ?_⟩
  cases hunread : s.unread with
  | nil =>
      have hfault := hleft.resolve_left fun hne => hne hunread
      rw [run, advance_nil hunread, hfault]
      rfl
  | cons token rest =>
      rw [run, advance_cons hunread]
      rfl

/-- Where no fault is behind the tokens, nothing is left when all of them are taken. -/
theorem advances_length (hfault : s.fault = none) : s.advances s.unread.length = ended := by
  rw [advances_eq (List.append_nil _).symm, restart_of_le (Nat.zero_le _), hfault]
  rfl

theorem atEnd_of_ok {result : Except Error StreamReply} {reply : StreamReply}
    (h : ((StreamEffect.atEnd result).apply s).1 = .ok reply) : s.fault = none ∧ result = .ok reply := by
  rw [StreamEffect.apply] at h
  cases hfault : s.fault with
  | none =>
      rw [hfault] at h
      exact ⟨rfl, h⟩
  | some e =>
      rw [hfault] at h
      cases h

theorem run_of_readForm {v : Value} {rest : List Token} (hop : op = .nextForm ∨ op = .form)
    (hread : readForm limits [] s.unread = .ok (v, rest)) :
    op.run limits s = (.ok (.form (some v)), s.restart rest) := by
  rw [run_eq]
  rcases hop with rfl | rfl <;> rw [effect, hread] <;> rfl

theorem parse_run {reply : StreamReply} (hpeek : op ≠ .peek) (hadvance : op ≠ .advance)
    (h : (op.run limits s).1 = .ok reply) :
    ∃ used, reply.MadeOf used ∧ s.unread = used ++ (op.run limits s).2.unread ∧
      (op.run limits s).2 = s.advances used.length := by
  obtain ⟨effect, heffect, hrun⟩ := exists_hasEffect limits op s
  rw [hrun] at h ⊢
  cases heffect with
  | peek => exact absurd rfl hpeek
  | advance => exact absurd rfl hadvance
  | noToken hop => exact (hop.elim hpeek hadvance).elim
  | form hop hread =>
      cases h
      obtain ⟨used, hused, hform⟩ := Begun.nil.readForm hread
      rw [StreamEffect.apply, unread_restart]
      exact ⟨used, .form hform, hused, (advances_eq hused).symm⟩
  | noForm hunread =>
      obtain ⟨hfault, hreply⟩ := atEnd_of_ok h
      cases hreply
      have hadvances := advances_length hfault
      rw [hunread] at hadvances
      exact ⟨[], .none, hunread, hadvances.symm⟩
  | @forms pieces vs hunread hforms =>
      obtain ⟨hfault, hreply⟩ := atEnd_of_ok h
      cases hreply
      have hadvances := advances_length hfault
      rw [hunread] at hadvances
      exact ⟨pieces.flatten, .forms hforms, hunread.trans (List.append_nil _).symm, hadvances.symm⟩
  | fault => cases h
  | missing => cases (atEnd_of_ok h).2

/-- Only the two operations that read a single form return one. -/
theorem readForm_of_run {v : Value} (h : (op.run limits s).1 = .ok (.form (some v))) :
    (op = .nextForm ∨ op = .form) ∧ ∃ rest, readForm limits [] s.unread = .ok (v, rest) := by
  obtain ⟨effect, heffect, hrun⟩ := exists_hasEffect limits op s
  rw [hrun] at h
  cases heffect with
  | form hop hread =>
      cases h
      exact ⟨hop, _, hread⟩
  | peek | advance | fault => cases h
  | noToken | noForm | forms | missing => cases (atEnd_of_ok h).2

theorem lazily_run {v : Value} (h : (op.run limits s).1 = .ok (.form (some v))) :
    Pulls limits [] s (.ok v) (op.run limits s).2 ∧ ∀ used more fault,
      s.unread = used ++ (op.run limits s).2.unread →
        op.run limits ⟨[], used ++ more, fault⟩ = ((op.run limits s).1, ⟨[], more, fault⟩) := by
  obtain ⟨hop, rest, hread⟩ := readForm_of_run h
  rw [run_of_readForm hop hread]
  constructor
  · have hresume : s.resume limits [] = (.ok v, s.restart rest) := by rw [resume, hread]
    have hpulls := pulls_resume limits [] s
    rwa [hresume] at hpulls
  · intro used more fault hused
    rw [unread_restart] at hused
    rw [hused] at hread
    have hmore : more.length ≤ (used ++ more).length := by
      rw [List.length_append]
      exact Nat.le_add_left _ _
    have hrun := run_of_readForm hop (s := ⟨[], used ++ more, fault⟩) (readForm_local hread more)
    rwa [restart_of_le hmore] at hrun

theorem sound_event (limits : Limits) (op : StreamOp) (s : TokenStream) : (op.event limits s).Sound limits where
  suffix := suffix_run limits op s
  buffer := buffer_run limits op
  peek := by
    rintro rfl
    exact advance_run_peek limits s
  advance := by
    rintro rfl
    exact advance_run limits s
  parse hpeek hadvance reply hreply := parse_run hpeek hadvance hreply
  lazily v hv := lazily_run hv

/-! ### The place behind the last token -/

/-- The operation comes to the place behind the last token: the tokens that are left are not enough for it. -/
def ReachesEnd (limits : Limits) (op : StreamOp) (s : TokenStream) : Prop :=
  ∃ result, op.effect limits s.unread = .atEnd result

/-- The fault in this place, if there is one, is the error of the operation that comes there, and nothing is left. -/
theorem ReachesEnd.run_eq (h : op.ReachesEnd limits s) :
    (op.run limits s).2 = ended ∧ ∀ e, s.fault = some e → (op.run limits s).1 = .error e := by
  obtain ⟨result, heffect⟩ := h
  rw [StreamOp.run_eq, heffect]
  refine ⟨rfl, fun e he => ?_⟩
  rw [StreamEffect.apply, he]
  rfl

/-- To an operation that does not come there it makes no difference what is there. -/
theorem run_withFault (h : ¬op.ReachesEnd limits s) (fault : Option Error) :
    op.run limits (s.withFault fault) = ((op.run limits s).1, (op.run limits s).2.withFault fault) := by
  have hunread : (s.withFault fault).unread = s.unread := rfl
  rw [run_eq, run_eq, hunread]
  cases heffect : op.effect limits s.unread with
  | held result => exact congrArg (Prod.mk result) (hold_withFault s fault)
  | within result rest => rfl
  | atEnd result => exact absurd ⟨result, heffect⟩ h

theorem reachesEnd_ended (limits : Limits) (op : StreamOp) : op.ReachesEnd limits ended := by
  cases op <;> exact ⟨_, rfl⟩

/-! ### One operation after the other -/

/-- The stream that operations leave. -/
def left (limits : Limits) : List StreamOp → TokenStream → TokenStream
  | [], s => s
  | op :: ops, s => left limits ops (op.run limits s).2

/-- What operations do one after the other. -/
def events (limits : Limits) : List StreamOp → TokenStream → List StreamEvent
  | [], _ => []
  | op :: ops, s => op.event limits s :: events limits ops (op.run limits s).2

/-- What they return. -/
def results (limits : Limits) (ops : List StreamOp) (s : TokenStream) : List (Except Error StreamReply) :=
  (events limits ops s).map StreamEvent.result

/-- None of the operations comes to the place behind the last token. -/
inductive Spared (limits : Limits) : List StreamOp → TokenStream → Prop
  | nil (s : TokenStream) : Spared limits [] s
  | cons {op : StreamOp} {ops : List StreamOp} {s : TokenStream} : ¬op.ReachesEnd limits s →
      Spared limits ops (op.run limits s).2 → Spared limits (op :: ops) s

section

variable {ops : List StreamOp}

theorem left_append (before later : List StreamOp) (s : TokenStream) :
    left limits (before ++ later) s = left limits later (left limits before s) := by
  induction before generalizing s with
  | nil => rfl
  | cons op before ih => exact ih _

theorem results_cons (op : StreamOp) (ops : List StreamOp) (s : TokenStream) :
    results limits (op :: ops) s = (op.run limits s).1 :: results limits ops (op.run limits s).2 := rfl

theorem results_append (before later : List StreamOp) (s : TokenStream) :
    results limits (before ++ later) s = results limits before s ++ results limits later (left limits before s) := by
  induction before generalizing s with
  | nil => rfl
  | cons op before ih => rw [List.cons_append, results_cons, results_cons, ih, List.cons_append]; rfl

theorem sound_events (limits : Limits) (ops : List StreamOp) (s : TokenStream) :
    ∀ event ∈ events limits ops s, event.Sound limits := by
  induction ops generalizing s with
  | nil => exact fun event hevent => nomatch hevent
  | cons op ops ih => exact List.forall_mem_cons.mpr ⟨sound_event limits op s, ih _⟩

/-- If there is one token in the buffer at most, there is never more than one. -/
theorem buffered_events (limits : Limits) (ops : List StreamOp) (h : s.buffer.length ≤ 1) :
    ∀ event ∈ events limits ops s, event.before.buffer.length ≤ 1 ∧ event.after.buffer.length ≤ 1 := by
  induction ops generalizing s with
  | nil => exact fun event hevent => nomatch hevent
  | cons op ops ih =>
      have hafter := (sound_event limits op s).buffered h
      exact List.forall_mem_cons.mpr ⟨⟨h, hafter⟩, ih hafter⟩

/-- At the end of a stream, operations find nothing. -/
theorem run_ended (limits : Limits) (ops : List StreamOp) :
    results limits ops ended = ops.map (fun op => (op.run limits ended).1) ∧ left limits ops ended = ended := by
  induction ops with
  | nil => exact ⟨rfl, rfl⟩
  | cons op ops ih =>
      have hended := (reachesEnd_ended limits op).run_eq.1
      rw [results_cons, left, hended, ih.1, ih.2]
      exact ⟨rfl, rfl⟩

theorem Spared.withFault (h : Spared limits ops s) (fault : Option Error) :
    results limits ops (s.withFault fault) = results limits ops s ∧
      left limits ops (s.withFault fault) = (left limits ops s).withFault fault := by
  induction h with
  | nil s => exact ⟨rfl, rfl⟩
  | cons hop _ ih =>
      rw [results_cons, results_cons, left, left, run_withFault hop]
      exact ⟨congrArg (_ :: ·) ih.1, ih.2⟩

theorem spared_or_reachesEnd (limits : Limits) (ops : List StreamOp) (s : TokenStream) :
    Spared limits ops s ∨ ∃ before op later, ops = before ++ op :: later ∧ Spared limits before s ∧
      op.ReachesEnd limits (left limits before s) := by
  induction ops generalizing s with
  | nil => exact .inl (.nil s)
  | cons op ops ih =>
      by_cases hop : op.ReachesEnd limits s
      · exact .inr ⟨[], op, ops, rfl, .nil s, hop⟩
      · rcases ih (op.run limits s).2 with hspared | ⟨before, op', later, rfl, hspared, hreaches⟩
        · exact .inl (.cons hop hspared)
        · exact .inr ⟨op :: before, op', later, rfl, .cons hop hspared, hreaches⟩

end

end StreamOp

/-- The tokens that an operation takes. -/
def StreamEvent.took (event : StreamEvent) : List Token :=
  event.before.unread.take (event.before.unread.length - event.after.unread.length)

theorem StreamEvent.Sound.unread_eq {limits : Limits} {event : StreamEvent} (h : event.Sound limits) :
    event.before.unread = event.took ++ event.after.unread := by
  obtain ⟨front, hfront⟩ := h.suffix
  rw [took, ← hfront]
  simp

/-- What operations take one after the other, and what they leave, are all the tokens. -/
theorem StreamOp.unread_eq (limits : Limits) (ops : List StreamOp) (s : TokenStream) :
    s.unread = (events limits ops s).flatMap StreamEvent.took ++ (left limits ops s).unread := by
  induction ops generalizing s with
  | nil => rfl
  | cons op ops ih =>
      have hop : s.unread = (op.event limits s).took ++ (op.run limits s).2.unread :=
        (sound_event limits op s).unread_eq
      rw [events, left, List.flatMap_cons, List.append_assoc, ← ih]
      exact hop

/-! ### The error of the lexer -/

/-- Whether a result is the error that the lexer has for a string that nothing closes. -/
def isUnclosed : Except Error StreamReply → Bool
  | .error (.read .unclosedString) => true
  | _ => false

namespace StreamOp

variable {limits : Limits} {op : StreamOp} {s : TokenStream}

/-- Reading has other errors than the lexer. -/
theorem error_of_run {e : Error} (hfault : s.fault = none) (h : (op.run limits s).1 = .error e) :
    e ≠ .read .unclosedString := by
  obtain ⟨effect, heffect, hrun⟩ := exists_hasEffect limits op s
  rw [hrun] at h
  rintro rfl
  cases heffect with
  | fault hop hbehind hread =>
      cases h
      exact Bool.noConfusion (readForm_fault hread)
  | @missing op opened =>
      have hmissing : OpenForm.missing opened ≠ .unclosedString := by
        unfold OpenForm.missing
        split <;> nofun
      rw [StreamEffect.apply_atEnd hfault] at h
      exact hmissing (Error.read.inj (Except.error.inj h))
  | peek | advance | form => cases h
  | noToken | noForm | forms =>
      rw [StreamEffect.apply_atEnd hfault] at h
      cases h

theorem fault_run (op : StreamOp) (hfault : s.fault = none) : (op.run limits s).2.fault = none := by
  rw [run_eq]
  cases op.effect limits s.unread with
  | held => exact (fault_hold s).trans hfault
  | within => exact hfault
  | atEnd => rfl

theorem countP_results (ops : List StreamOp) (hfault : s.fault = none) :
    (results limits ops s).countP isUnclosed = 0 := by
  induction ops generalizing s with
  | nil => rfl
  | cons op ops ih =>
      have hop : isUnclosed (op.run limits s).1 = false := by
        cases hresult : (op.run limits s).1 with
        | ok reply => rfl
        | error e =>
            unfold isUnclosed
            split
            · next heq => exact absurd (Except.error.inj heq) (error_of_run hfault hresult)
            · rfl
      rw [results_cons, List.countP_cons_of_neg (by simp [hop]), ih (fault_run op hfault)]

/-- However much is done with the stream of a text, the error of the lexer is raised once at most. -/
theorem countP_results_ofSource (limits : Limits) (ops : List StreamOp) (source : String) :
    (results limits ops (ofSource source)).countP isUnclosed ≤ 1 := by
  have hnone : ((ofSource source).withFault none).fault = none := rfl
  rcases spared_or_reachesEnd limits ops (ofSource source) with hspared | ⟨before, op, later, rfl, hspared, hreaches⟩
  · rw [← (hspared.withFault none).1, countP_results ops hnone]
    exact Nat.zero_le 1
  · have hended : ended.fault = none := rfl
    rw [results_append, results_cons, hreaches.run_eq.1, List.countP_append, List.countP_cons,
      countP_results later hended, ← (hspared.withFault none).1, countP_results before hnone]
    split <;> omega

end StreamOp

/-- **Streams neither lose nor repeat tokens.** Let any operations follow one another on any stream, such as that of
some tokens or of a text. Each of them, whether it fails or not, takes from the front what it should and no more, so
what they take and what they leave are, one behind the other, the tokens of the stream. If at first there is one token
in the buffer at most, such as on a new stream, where there is none, then there is never more than one. Either the
operations all get by with the tokens that there are, and then it makes no difference what is behind these, which also
stays there. Or one of them is the first for which the tokens are not enough: then a fault behind them is the error of
this operation, the operations before it do as if there were none, and those after it find the end of the stream. The
error of the lexer is raised once at most. -/
theorem stream_operations (limits : Limits) (ops : List StreamOp) (s : TokenStream) :
    (∀ event ∈ StreamOp.events limits ops s, event.Sound limits) ∧
    s.unread = (StreamOp.events limits ops s).flatMap StreamEvent.took ++ (StreamOp.left limits ops s).unread ∧
    (s.buffer.length ≤ 1 → ∀ event ∈ StreamOp.events limits ops s,
      event.before.buffer.length ≤ 1 ∧ event.after.buffer.length ≤ 1) ∧
    (StreamOp.Spared limits ops s ∧
        (∀ fault, StreamOp.results limits ops (s.withFault fault) = StreamOp.results limits ops s ∧
          StreamOp.left limits ops (s.withFault fault) = (StreamOp.left limits ops s).withFault fault) ∨
      ∃ before op later, ops = before ++ op :: later ∧ StreamOp.Spared limits before s ∧
        op.ReachesEnd limits (StreamOp.left limits before s) ∧
        (∀ e, s.fault = some e → StreamOp.results limits ops s =
          StreamOp.results limits before (s.withFault none) ++
            .error e :: later.map fun op => (op.run limits ended).1) ∧
        StreamOp.left limits ops s = ended) ∧
    ∀ source, (StreamOp.results limits ops (ofSource source)).countP isUnclosed ≤ 1 := by
  refine ⟨StreamOp.sound_events limits ops s, StreamOp.unread_eq limits ops s, StreamOp.buffered_events limits ops,
    ?_, StreamOp.countP_results_ofSource limits ops⟩
  rcases StreamOp.spared_or_reachesEnd limits ops s with hspared | ⟨before, op, later, rfl, hspared, hreaches⟩
  · exact .inl ⟨hspared, hspared.withFault⟩
  · refine .inr ⟨before, op, later, rfl, hspared, hreaches, fun e he => ?_, ?_⟩
    · have hfault : (StreamOp.left limits before s).fault = some e := by
        have hsame : s.withFault (some e) = s := by rw [← he]; rfl
        have hleft := (hspared.withFault (some e)).2
        rw [hsame] at hleft
        rw [hleft]
        rfl
      rw [StreamOp.results_append, StreamOp.results_cons, hreaches.run_eq.1, hreaches.run_eq.2 e hfault,
        (StreamOp.run_ended limits later).1, (hspared.withFault none).1]
    · rw [StreamOp.left_append, StreamOp.left, hreaches.run_eq.1, (StreamOp.run_ended limits later).2]

/-- The string that nothing closes is met by the operation that needs a second form, and by no other, and only the
first token is looked at before it is taken. -/
theorem stream_operations_unclosed :
    StreamOp.results {} [.peek, .nextForm, .form, .advance] (ofSource "1 (2 \"x") =
      [.ok (.token (some ⟨.atom, "1"⟩)), .ok (.form (some (.int 1))), .error (.read .unclosedString),
        .ok (.token none)] ∧
    (StreamOp.results {} [.peek, .nextForm, .form, .advance] (ofSource "1 (2 \"x")).countP isUnclosed ≤ 1 ∧
    (StreamOp.events {} [.peek, .nextForm, .form, .advance] (ofSource "1 (2 \"x")).map (·.after.buffer) =
      [[⟨.atom, "1"⟩], [], [], []] ∧
    ∀ event ∈ StreamOp.events {} [.peek, .nextForm, .form, .advance] (ofSource "1 (2 \"x"),
      event.Sound {} ∧ event.after.buffer.length ≤ 1 := by
  obtain ⟨hsound, -, hbuffered, -, honce⟩ :=
    stream_operations {} [.peek, .nextForm, .form, .advance] (ofSource "1 (2 \"x")
  exact ⟨rfl, honce "1 (2 \"x", rfl, fun event hevent =>
    ⟨hsound event hevent, (hbuffered (Nat.zero_le 1) event hevent).2⟩⟩

end SmallLisp
