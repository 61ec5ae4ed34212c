import SmallLisp.Token.Lexer

/-! A stream of tokens. To look at the next token is to move it from the source into a buffer, from which it is taken
later. The source may end in a fault; the fault is reported once, to the first operation that needs the token in its
place, and after it the stream is at its end. -/

namespace SmallLisp

/-- A stream: the tokens that were looked at and not yet taken, the tokens still in the source, and the fault
behind them. -/
structure TokenStream where
  buffer : List Token
  source : List Token
  fault : Option Error

namespace TokenStream

/-- The stream of ready-made tokens. -/
def ofTokens (tokens : List Token) : TokenStream := ⟨[], tokens, none⟩

/-- The stream of a text's tokens. -/
def ofLexed (lexed : Lexed) : TokenStream := ⟨[], lexed.tokens, lexed.fault?⟩

/-- The stream of source text. -/
def ofSource (source : String) : TokenStream := ofLexed (lex source)

/-- The tokens that no operation has taken yet. -/
def unread (s : TokenStream) : List Token := s.buffer ++ s.source

/-- A stream of which only these tokens are left, the last ones. Those in front of them were taken from the buffer
first, and then from the source. -/
def restart (s : TokenStream) (rest : List Token) : TokenStream :=
  ⟨rest.take (rest.length - s.source.length), rest.drop (rest.length - s.source.length), s.fault⟩

/-- A stream that has nothing left, not even a fault. -/
def ended : TokenStream := ⟨[], [], none⟩

/-- Takes the next token of the source, if there is one. -/
def pull (s : TokenStream) : Except Error (Option Token) × TokenStream :=
  match s.source, s.fault with
  | token :: source, _ => (.ok (some token), { s with source })
  | [], some e => (.error e, { s with fault := none })
  | [], none => (.ok none, s)

/-- The next token, if there is one, which stays in the stream. -/
def peek (s : TokenStream) : Except Error (Option Token) × TokenStream :=
  match s.buffer with
  | token :: _ => (.ok (some token), s)
  | [] =>
    match s.pull with
    | (.ok (some token), s) => (.ok (some token), { s with buffer := s.buffer ++ [token] })
    | (.ok none, s) => (.ok none, s)
    | (.error e, s) => (.error e, s)

/-- Takes the next token, if there is one. -/
def advance (s : TokenStream) : Except Error (Option Token) × TokenStream :=
  match s.buffer with
  | token :: buffer => (.ok (some token), { s with buffer })
  | [] => s.pull

/-! ### What is left -/

/-- The stream with its next token in the buffer. -/
def hold (s : TokenStream) : TokenStream :=
  match s.buffer, s.source with
  | [], token :: source => ⟨[token], source, s.fault⟩
  | _, _ => s

variable {s : TokenStream} {token : Token} {tokens rest : List Token}

@[simp]
theorem unread_restart (s : TokenStream) (rest : List Token) : (s.restart rest).unread = rest :=
  List.take_append_drop _ rest

@[simp]
theorem fault_restart (s : TokenStream) (rest : List Token) : (s.restart rest).fault = s.fault := rfl

theorem restart_append (s : TokenStream) (buffer : List Token) :
    s.restart (buffer ++ s.source) = { s with buffer } := by
  simp [restart]

theorem restart_of_le (h : rest.length ≤ s.source.length) : s.restart rest = ⟨[], rest, s.fault⟩ := by
  simp [restart, Nat.sub_eq_zero_of_le h]

theorem restart_restart (h : rest.length ≤ tokens.length) : (s.restart tokens).restart rest = s.restart rest := by
  have hsource : rest.length - (s.restart tokens).source.length = rest.length - s.source.length := by
    simp only [restart, List.length_drop]
    omega
  rw [restart, hsource]
  rfl

@[simp]
theorem unread_hold (s : TokenStream) : s.hold.unread = s.unread := by
  unfold hold
  split
  · next hbuffer hsource => rw [unread, unread, hbuffer, hsource]; rfl
  · rfl

@[simp]
theorem fault_hold (s : TokenStream) : s.hold.fault = s.fault := by
  unfold hold
  split <;> rfl

theorem hold_restart (h : rest.length < s.unread.length) : s.hold.restart rest = s.restart rest := by
  unfold hold
  split
  · next hbuffer hsource =>
      rw [unread, hbuffer, hsource] at h
      rw [restart_of_le (Nat.le_of_lt_succ h), restart_of_le (by rw [hsource]; exact Nat.le_of_lt h)]
  · rfl

theorem peek_cons (h : s.unread = token :: rest) : s.peek = (.ok (some token), s.hold) := by
  obtain ⟨buffer, source, fault⟩ := s
  cases buffer with
  | nil =>
      cases source with
      | nil => cases h
      | cons _ _ => cases h; rfl
  | cons _ _ => cases h; rfl

theorem advance_cons (h : s.unread = token :: rest) : s.advance = (.ok (some token), s.restart rest) := by
  obtain ⟨buffer, source, fault⟩ := s
  cases buffer with
  | nil =>
      cases source with
      | nil => cases h
      | cons _ _ =>
          cases h
          rw [restart_of_le (Nat.le_succ _)]
          rfl
  | cons _ buffer =>
      cases h
      exact congrArg (Prod.mk _) (restart_append _ buffer).symm

theorem eq_of_unread_eq_nil (h : s.unread = []) : s = { ended with fault := s.fault } := by
  obtain ⟨buffer, source, fault⟩ := s
  obtain ⟨rfl, rfl⟩ := List.append_eq_nil_iff.mp h
  rfl

theorem peek_nil (h : s.unread = []) : s.peek = (s.fault.elim (.ok none) .error, ended) := by
  rw [eq_of_unread_eq_nil h]
  cases s.fault <;> rfl

theorem advance_nil (h : s.unread = []) : s.advance = (s.fault.elim (.ok none) .error, ended) := by
  rw [eq_of_unread_eq_nil h]
  cases s.fault <;> rfl

end TokenStream

end SmallLisp
