import PackageManifest.Source.Lexeme

/-!
# Lists of tokens that are their own cut

A text is cut into tokens from left to right. `Cuts t rest` says that the cut of `t.text ++ rest`
starts with `t`, without a fault, and `Lexed ts rest` says so of every token of `ts`. A list that is
`Lexed` in front of nothing is what its text is cut into.
-/

namespace PackageManifest.Proofs.Lexing

open Source

theorem lexemes_cons (c : Char) (cs : List Char) :
    lexemes (c :: cs) =
      ((lexeme c cs).token, (lexeme c cs).fault) :: lexemes (lexeme c cs).rest := by
  rw [lexemes]

theorem textOf_tokens (input : List Char) : textOf (tokens input) = input := by
  induction hn : input.length using Nat.strongRecOn generalizing input with
  | ind n ih =>
    cases input with
    | nil => simp [tokens, lexemes]
    | cons c cs =>
      have hlt : (lexeme c cs).rest.length < n := hn ▸ (lexeme c cs).length_rest_lt
      have hrest : textOf (tokens (lexeme c cs).rest) = (lexeme c cs).rest := ih _ hlt _ rfl
      unfold tokens at hrest
      rw [tokens, lexemes_cons, List.map_cons, textOf_cons, hrest]
      exact (lexeme c cs).whole

def Cuts (t : Token) (rest : List Char) : Prop :=
  ∃ c cs, t.text = c :: cs ∧ (lexeme c (cs ++ rest)).token = t ∧
    (lexeme c (cs ++ rest)).fault = none

/-- Each token is the first one of the text from there on, with `rest` at its end. -/
def Lexed : List Token → List Char → Prop
  | [], _ => True
  | t :: ts, rest => Cuts t (textOf ts ++ rest) ∧ Lexed ts rest

theorem lexed_append {ts us : List Token} {rest : List Char} :
    Lexed (ts ++ us) rest ↔ Lexed ts (textOf us ++ rest) ∧ Lexed us rest := by
  induction ts with
  | nil => simp [Lexed]
  | cons t ts ih => simp [Lexed, ih, and_assoc]

theorem Cuts.text_ne_nil {t : Token} {rest : List Char} (h : Cuts t rest) : t.text ≠ [] := by
  obtain ⟨c, cs, htext, _⟩ := h
  simp [htext]

theorem rest_eq_of_text_eq {c : Char} {cs rest : List Char}
    (h : (lexeme c (cs ++ rest)).text = c :: cs) : (lexeme c (cs ++ rest)).rest = rest := by
  have hwhole := (lexeme c (cs ++ rest)).whole
  rw [h, List.cons_append, List.cons.injEq, List.append_cancel_left_eq] at hwhole
  exact hwhole.2

theorem lexed_tokens {input : List Char} (h : faults input = []) : Lexed (tokens input) [] := by
  induction hn : input.length using Nat.strongRecOn generalizing input with
  | ind n ih =>
    cases input with
    | nil => simp [tokens, lexemes, Lexed]
    | cons c cs =>
      rw [faults, lexemes_cons, List.filterMap_cons] at h
      cases hfault : (lexeme c cs).fault with
      | some fault => simp [hfault] at h
      | none =>
        simp only [hfault] at h
        have hlt : (lexeme c cs).rest.length < n := hn ▸ (lexeme c cs).length_rest_lt
        rw [tokens, lexemes_cons, List.map_cons, Lexed]
        refine ⟨?_, ih _ hlt h rfl⟩
        change Cuts (lexeme c cs).token (textOf (tokens (lexeme c cs).rest) ++ [])
        rw [textOf_tokens, List.append_nil]
        have hwhole := (lexeme c cs).whole
        cases htext : (lexeme c cs).text with
        | nil => exact absurd htext (lexeme c cs).nonempty
        | cons d ds =>
          rw [htext, List.cons_append, List.cons.injEq] at hwhole
          obtain ⟨rfl, hds⟩ := hwhole
          exact ⟨d, ds, htext, by rw [hds], by rw [hds, hfault]⟩

theorem lexemes_of_lexed {ts : List Token} (h : Lexed ts []) :
    lexemes (textOf ts) = ts.map fun t => (t, none) := by
  induction ts with
  | nil => simp [lexemes]
  | cons t ts ih =>
    obtain ⟨⟨c, cs, htext, htoken, hfault⟩, hmore⟩ := h
    rw [List.append_nil] at htoken hfault
    have htext' : (lexeme c (cs ++ textOf ts)).text = c :: cs := by
      rw [← htext, ← htoken]
      rfl
    rw [textOf_cons, htext, List.cons_append, lexemes_cons, htoken, hfault,
      rest_eq_of_text_eq htext', ih hmore, List.map_cons]

theorem tokens_of_lexed {ts : List Token} (h : Lexed ts []) : tokens (textOf ts) = ts := by
  rw [tokens, lexemes_of_lexed h, List.map_map]
  exact List.map_id ts

theorem faults_of_lexed {ts : List Token} (h : Lexed ts []) : faults (textOf ts) = [] := by
  rw [faults, lexemes_of_lexed h]
  simp

end PackageManifest.Proofs.Lexing
