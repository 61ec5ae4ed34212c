import SmallLisp.Form.Open
import SmallLisp.Token.Stream

/-! Reading forms from tokens. A form ends with the token that completes it, so reading one takes no token
behind it. When reading fails, the tokens up to and with the one at fault are taken, and the stream goes on
behind them. -/

namespace SmallLisp

/-- Why reading came to a halt before the form was complete: a token was at fault, or there was none left
inside these open forms. -/
inductive Halt
  | fault (e : Error) (rest : List Token)
  | outOfTokens (opened : List OpenForm)

/-- Reads tokens up to the end of the outermost open form. -/
def readForm (limits : Limits) : List OpenForm → List Token → Except Halt (Value × List Token)
  | opened, [] => .error (.outOfTokens opened)
  | opened, token :: tokens =>
    match Progress.accept limits opened token with
    | .error e => .error (.fault e tokens)
    | .ok (.complete v) => .ok (v, tokens)
    | .ok (.within opened) => readForm limits opened tokens

/-- Reads forms one after the other, until reading comes to a halt. -/
def readForms (limits : Limits) : List OpenForm → List Token → List Value × Halt
  | opened, [] => ([], .outOfTokens opened)
  | opened, token :: tokens =>
    match Progress.accept limits opened token with
    | .error e => ([], .fault e tokens)
    | .ok (.complete v) =>
      let (forms, halt) := readForms limits [] tokens
      (v :: forms, halt)
    | .ok (.within opened) => readForms limits opened tokens

namespace TokenStream

/-- Completes some open forms with the tokens of the stream. -/
def resume (limits : Limits) (opened : List OpenForm) (s : TokenStream) :
    Except Error Value × TokenStream :=
  match readForm limits opened s.unread with
  | .ok (v, rest) => (.ok v, s.restart rest)
  | .error (.fault e rest) => (.error e, s.restart rest)
  | .error (.outOfTokens opened) => (.error (s.fault.getD (.read (OpenForm.missing opened))), ended)

/-- Reads a form, which has to be there. -/
def form (limits : Limits) (s : TokenStream) : Except Error Value × TokenStream := resume limits [] s

/-- Reads the next form, if the stream is not at its end. -/
def nextForm? (limits : Limits) (s : TokenStream) : Except Error (Option Value) × TokenStream :=
  match s.peek with
  | (.error e, s) => (.error e, s)
  | (.ok none, s) => (.ok none, s)
  | (.ok (some _), s) =>
    let (result, s) := s.form limits
    (result.map some, s)

/-- Reads all forms up to the end of the stream or up to a fault, which is given behind them. -/
def forms (limits : Limits) (s : TokenStream) : List Value × Option Error × TokenStream :=
  match readForms limits [] s.unread with
  | (forms, .fault e rest) => (forms, some e, s.restart rest)
  | (forms, .outOfTokens []) => (forms, s.fault, ended)
  | (forms, .outOfTokens opened) => (forms, some (s.fault.getD (.read (OpenForm.missing opened))), ended)

/-- Reads the form that a shorthand token stands in front of, as the list that it abbreviates. -/
def expand (limits : Limits) (token : String) (s : TokenStream) : Except Error Value × TokenStream :=
  match OpenForm.ofShorthand? token with
  | some form => resume limits [form] s
  | none => (.error (.read (.unknownShorthand token)), s)

end TokenStream

/-- The first form of a text, if it holds one. What follows the form is not looked at. -/
def readFirst (limits : Limits) (source : String) : Except Error (Option Value) :=
  ((TokenStream.ofSource source).nextForm? limits).1

/-- The forms of a text up to its end or its first fault. -/
def readPrefix (limits : Limits) (source : String) : List Value × Option Error :=
  let (forms, fault, _) := (TokenStream.ofSource source).forms limits
  (forms, fault)

/-- All forms of a text. -/
def readAll (limits : Limits) (source : String) : Except Error (List Value) :=
  match readPrefix limits source with
  | (forms, none) => .ok forms
  | (_, some e) => .error e

/-- The error that ends reading: what is at fault, or else what is missing in the open forms. -/
def Halt.error (fault : Option Error) : Halt → Error
  | .fault e _ => e
  | .outOfTokens opened => fault.getD (.read (OpenForm.missing opened))

/-! ### What is left behind a form -/

theorem readForm_length_lt {limits : Limits} {opened : List OpenForm} {tokens rest : List Token} {v : Value}
    (h : readForm limits opened tokens = .ok (v, rest)) : rest.length < tokens.length := by
  induction tokens generalizing opened with
  | nil => cases h
  | cons token tokens ih =>
      rw [readForm] at h
      split at h
      · cases h
      · cases h
        exact Nat.lt_succ_self _
      · exact Nat.lt_succ_of_lt (ih h)

namespace TokenStream

variable {limits : Limits} {s s' : TokenStream} {v : Value}

/-- The next form is read from the tokens that are left, and those behind it are left. -/
theorem readForm_of_nextForm? (h : s.nextForm? limits = (.ok (some v), s')) :
    ∃ rest, readForm limits [] s.unread = .ok (v, rest) ∧ s' = s.restart rest := by
  rw [nextForm?] at h
  cases hunread : s.unread with
  | nil =>
      rw [peek_nil hunread] at h
      cases hfault : s.fault <;> rw [hfault] at h <;> cases h
  | cons token tokens =>
      rw [peek_cons hunread] at h
      simp only [form, resume, unread_hold, hunread] at h
      cases hread : readForm limits [] (token :: tokens) with
      | ok result =>
          obtain ⟨w, rest⟩ := result
          rw [hread] at h
          cases h
          have hrest : rest.length < s.unread.length := hunread ▸ readForm_length_lt hread
          exact ⟨rest, rfl, hold_restart hrest⟩
      | error halt =>
          rw [hread] at h
          cases halt <;> cases h

/-- A form has a token at least, so fewer tokens are left behind it. -/
theorem nextForm?_length_lt (h : s.nextForm? limits = (.ok (some v), s')) :
    s'.unread.length < s.unread.length := by
  obtain ⟨rest, hread, rfl⟩ := readForm_of_nextForm? h
  rw [unread_restart]
  exact readForm_length_lt hread

end TokenStream

/-! ### The forms of a text -/

/-- The first form of a text, by its tokens and what is behind them. -/
theorem readFirst_eq (limits : Limits) (source : String) :
    readFirst limits source =
      if (lex source).tokens = [] then
        match (lex source).fault? with
        | some e => .error e
        | none => .ok none
      else
        match readForm limits [] (lex source).tokens with
        | .ok (v, _) => .ok (some v)
        | .error halt => .error (halt.error (lex source).fault?) := by
  unfold readFirst TokenStream.nextForm? TokenStream.peek TokenStream.pull TokenStream.ofSource TokenStream.ofLexed
  cases (lex source).tokens with
  | nil => cases (lex source).fault? <;> rfl
  | cons token tokens =>
      simp only [TokenStream.form, TokenStream.resume, TokenStream.unread, List.cons_append, List.nil_append,
        reduceCtorEq, if_false]
      rcases readForm limits [] (token :: tokens) with (_ | _) | _ <;> rfl

/-- The forms of a text, by its tokens and what is behind them. -/
theorem readPrefix_eq (limits : Limits) (source : String) :
    readPrefix limits source =
      match readForms limits [] (lex source).tokens with
      | (forms, .outOfTokens []) => (forms, (lex source).fault?)
      | (forms, halt) => (forms, some (halt.error (lex source).fault?)) := by
  unfold readPrefix TokenStream.forms TokenStream.ofSource TokenStream.ofLexed
  simp only [TokenStream.unread, List.nil_append]
  rcases readForms limits [] (lex source).tokens with ⟨forms, _ | (_ | _)⟩ <;> rfl

end SmallLisp
