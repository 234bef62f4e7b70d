import PackageManifest.Proofs.Grammar.Statements

/-!
# Where the grammar finds something wrong

Main statement: `items_trouble`. Whatever is wrong with a list of tokens is found at one of them or
at their end, and trouble with a delimiter at a delimiter. The place is kept as the tokens from
there on, so all that is to be shown is that they are an end of the list: the rules for expressions
hand such ends to each other (`Tails`), and so do the statements (`Opened`).
-/

namespace PackageManifest.Proofs.Grammar

open Source

/-- What is left of the tokens `ts` is an end of them, and so is the place at which they nest too
deep. -/
def Tails {α : Type} (ts : List Token) : Except Refusal (α × List Token) → Prop
  | .ok r => r.2 <:+ ts
  | .error (.tooDeep ahead) => ahead <:+ ts
  | .error .unsupported => True

namespace Tails

variable {α β : Type} {ts us : List Token} {x : Except Refusal (α × List Token)}

theorem mono (h : Tails us x) (hus : us <:+ ts) : Tails ts x := by
  match x with
  | .ok _ => exact h.trans hus
  | .error (.tooDeep _) => exact h.trans hus
  | .error .unsupported => trivial

theorem bind {f : α × List Token → Except Refusal (β × List Token)} (h : Tails ts x)
    (hf : ∀ r, x = .ok r → Tails r.2 (f r)) : Tails ts (x.bind f) := by
  match x with
  | .ok r => exact (hf r rfl).mono h
  | .error (.tooDeep _) => exact h
  | .error .unsupported => trivial

theorem map {f : α × List Token → β × List Token} (h : Tails ts x) (hf : ∀ r, (f r).2 <:+ r.2) :
    Tails ts (x.map f) := by
  match x with
  | .ok r => exact (hf r).trans h
  | .error (.tooDeep _) => exact h
  | .error .unsupported => trivial

theorem value (h : Tails ts x) (f : α × List Token → β) :
    Tails ts (x.map fun r => (f r, r.2)) :=
  h.map fun _ => List.suffix_rfl

theorem refusing {x : Option (α × List Token)} (h : ∀ r, x = some r → r.2 <:+ ts) :
    Tails ts (refusing x) := by
  cases x with
  | none => trivial
  | some r => exact h r rfl

end Tails

theorem afterTrivia_suffix (ts : List Token) : afterTrivia ts <:+ ts := List.dropWhile_suffix _

theorem suffix_of_afterTrivia {ts rest : List Token} {t : Token} (h : afterTrivia ts = t :: rest) :
    t :: rest <:+ ts :=
  h ▸ afterTrivia_suffix ts

theorem expect?_suffix {kind : TokenKind} {ts rest : List Token} {t : Token}
    (h : expect? kind (afterTrivia ts) = some (t, rest)) : rest <:+ ts :=
  (List.suffix_cons t rest).trans (suffix_of_afterTrivia (expect?_eq_some h).1)

/-! ## Expressions -/

theorem closure_tails (ts : List Token) : Tails ts (plain (closure ts)) := by
  rw [plain_closure]
  split
  · trivial
  · rename_i r hr
    exact ⟨r.1, (balanced_sound hr).2.symm⟩

section Rules

variable {operand : Parser Tree} (hop : ∀ ts, Tails ts (plain (operand ts)))
include hop

theorem operations_tails (due : Nat) (ts : List Token) :
    Tails ts (plain (operations operand due ts)) := by
  obtain ⟨n, hn⟩ : ∃ n, ts.length = n := ⟨_, rfl⟩
  induction n using Nat.strongRecOn generalizing due ts with
  | ind n ih =>
    cases hts : afterTrivia ts with
    | nil =>
      rw [plain_operations_nil operand hts]
      split
      · exact List.suffix_rfl
      · trivial
    | cons sign after =>
      rw [plain_operations_cons operand hts]
      split
      · have hafter : afterTrivia after <:+ ts :=
          (afterTrivia_suffix after).trans
            ((List.suffix_cons sign after).trans (suffix_of_afterTrivia hts))
        refine ((hop _).mono hafter).bind fun first hfirst => ?_
        have hlt : first.2.length < n := by
          have := length_lt_of_plain hfirst
          have := length_afterTrivia_le after
          have := length_lt_of_afterTrivia hts
          omega
        exact (ih _ hlt _ _ rfl).value _
      · split
        · exact List.suffix_rfl
        · trivial

theorem sequence_tails (ts : List Token) : Tails ts (plain (sequence operand ts)) := by
  rw [plain_sequence]
  refine (hop ts).bind fun first _ => ?_
  split
  · exact (operations_tails hop 0 first.2).value _
  · exact List.suffix_rfl

theorem element_tails (kind : NodeKind) (ts : List Token) :
    Tails ts (plain (element kind (sequence operand) ts)) := by
  have hstart : (start kind ts).2 <:+ ts := ⟨_, (start_sound kind ts).2.symm⟩
  rw [plain_element]
  refine ((sequence_tails hop _).mono hstart).map fun value => ?_
  split
  · rename_i comma rest hcomma
    exact expect?_suffix hcomma
  · exact List.suffix_rfl

theorem elements_tails (kind : NodeKind) (close : TokenKind) (ts : List Token) :
    Tails ts (plain (elements close (element kind (sequence operand)) ts)) := by
  obtain ⟨n, hn⟩ : ∃ n, ts.length = n := ⟨_, rfl⟩
  induction n using Nat.strongRecOn generalizing ts with
  | ind n ih =>
    rw [plain_elements]
    split
    · rename_i t rest hclose
      exact expect?_suffix hclose
    · refine ((element_tails hop kind _).mono (afterTrivia_suffix ts)).bind fun first hfirst => ?_
      split
      · have hlt : first.2.length < n := by
          have := length_lt_of_plain hfirst
          have := length_afterTrivia_le ts
          omega
        exact (ih _ hlt _ rfl).value _
      · split
        · rename_i t rest hclose
          exact expect?_suffix hclose
        · trivial

theorem delimited_tails (kind item : NodeKind) (close : TokenKind) (ts : List Token) :
    Tails ts (plain (delimited kind close (element item (sequence operand)) ts)) := by
  cases ts with
  | nil => trivial
  | cons t ts =>
    rw [plain_delimited]
    exact ((elements_tails hop item close ts).mono (List.suffix_cons t ts)).value _

theorem primary_tails (ts : List Token) : Tails ts (plain (primary operand ts)) := by
  cases ts with
  | nil => trivial
  | cons t ts =>
    have htail := List.suffix_cons t ts
    rw [plain_primary]
    split
    · split
      · trivial
      · rename_i name rest
        split
        · exact (List.suffix_cons name rest).trans htail
        · trivial
    · exact delimited_tails hop _ _ _ _
    · exact (delimited_tails hop _ _ _ _).value _
    · exact closure_tails _
    · split
      · trivial
      · exact ((hop ts).mono htail).value _
    · split
      · exact htail
      · trivial

theorem call_tails (base : List Tree) (ts : List Token) :
    Tails ts (plain (call operand base ts)) := by
  rw [plain_call]
  refine (delimited_tails hop _ _ _ _).bind fun list _ => ?_
  split
  · exact ((closure_tails _).mono (afterTrivia_suffix list.2)).value _
  · exact List.suffix_rfl

omit hop in
theorem member_tails (base : List Tree) (ts : List Token) : Tails ts (plain (member base ts)) := by
  match ts with
  | [] => trivial
  | [_] => trivial
  | dot :: name :: rest =>
    rw [plain_member]
    split
    · exact (List.suffix_cons name rest).trans (List.suffix_cons dot _)
    · trivial

theorem applied_tails {base : Tree} {ts : List Token} {x : Except Refusal (Tree × List Token)}
    (h : applied? operand base ts = some x) : Tails ts x := by
  refine Tails.mono ?_ (afterTrivia_suffix ts)
  unfold applied? at h
  split at h
  · cases h
    exact member_tails _ _
  · split at h
    · cases h
    · cases h
      exact call_tails hop _ _
  · split at h
    · cases h
    · cases h
      exact (delimited_tails hop _ _ _ _).value _
  · split at h
    · cases h
    · cases h
      exact (closure_tails _).value _
  · cases h

theorem applications_tails (base : Tree) (ts : List Token) :
    Tails ts (plain (applications operand base ts)) := by
  obtain ⟨n, hn⟩ : ∃ n, ts.length = n := ⟨_, rfl⟩
  induction n using Nat.strongRecOn generalizing base ts with
  | ind n ih =>
    rw [plain_applications]
    cases happlied : applied? operand base ts with
    | none => exact List.suffix_rfl
    | some x =>
      refine (applied_tails hop happlied).bind fun t ht => ?_
      have hlt : t.2.length < n := by
        rw [applied?_eq_map, ht] at happlied
        obtain ⟨rule, _, hrule⟩ := Option.map_eq_some_iff.1 happlied
        have := length_lt_of_plain hrule
        have := length_afterTrivia_le ts
        omega
      exact ih _ hlt _ _ rfl

end Rules

theorem operand_tails (budget : Nat) (ts : List Token) :
    Tails ts (plain (Source.operand budget ts)) := by
  induction budget generalizing ts with
  | zero => exact List.suffix_rfl
  | succ budget ih =>
    rw [plain_operand]
    exact (primary_tails ih ts).bind fun base _ => applications_tails ih base.1 base.2

theorem expression_tails (ts : List Token) : Tails ts (plain (expression ts)) :=
  sequence_tails (operand_tails maxNesting) ts

/-! ## Declarations -/

theorem bindingTail_tails (ts : List Token) : Tails ts (plain (bindingTail ts)) := by
  rw [plain_bindingTail]
  refine Tails.bind (.refusing fun name hname => ?_) fun name _ => ?_
  · exact ⟨_, (expectNext?_consumes hname).symm⟩
  refine Tails.bind (.refusing fun type htype => ?_) fun type _ => ?_
  · exact ⟨_, (typeClause_consumes htype).symm⟩
  refine Tails.bind (.refusing fun equals hequals => ?_) fun equals _ => ?_
  · exact ⟨_, (expectNext?_consumes hequals).symm⟩
  refine ((expression_tails _).mono (afterTrivia_suffix _)).bind fun value _ => ?_
  refine Tails.value (.refusing fun last hlast => ?_) _
  exact ⟨_, (statementEnd?_consumes hlast).symm⟩

theorem declaration_tails (ts : List Token) : Tails ts (plain (declaration ts)) := by
  cases ts with
  | nil => trivial
  | cons t ts =>
    refine Tails.mono ?_ (List.suffix_cons t ts)
    rw [plain_declaration]
    split
    · refine Tails.value (.refusing fun r himport => ?_) _
      exact ⟨_, (importTail_consumes himport).symm⟩
    · exact (bindingTail_tails ts).value _

/-! ## Statements -/

def isUnbalanced : Cause → Bool
  | .unclosed _ | .mismatched .. | .unopened _ => true
  | _ => false

def isDelimiter (kind : TokenKind) : Bool := kind.isOpening || kind.isClosing

/-- What is wrong is found at a token of `ts` or at their end, and trouble with a delimiter at a
delimiter. -/
structure TroubleIn (ts : List Token) (e : Trouble) : Prop where
  ahead : e.ahead <:+ ts
  delimiter : isUnbalanced e.cause = true →
    ∃ t after, e.ahead = t :: after ∧ isDelimiter t.kind = true

theorem TroubleIn.mono {ts us : List Token} {e : Trouble} (h : TroubleIn us e) (hus : us <:+ ts) :
    TroubleIn ts e :=
  ⟨h.ahead.trans hus, h.delimiter⟩

theorem troubleIn_tooDeep {ts ahead : List Token} (h : ahead <:+ ts) (limit : Nat) :
    TroubleIn ts ⟨.tooDeep limit, ahead⟩ :=
  ⟨h, fun hcause => by cases hcause⟩

theorem troubleIn_delimiter {ts after : List Token} {t : Token} {cause : Cause}
    (h : t :: after <:+ ts) (ht : isDelimiter t.kind = true) : TroubleIn ts ⟨cause, t :: after⟩ :=
  ⟨h, fun _ => ⟨t, after, rfl, ht⟩⟩

def Opened (ts : List Token) (opened : List Opener) : Prop :=
  ∀ opener ∈ opened, opener.token :: opener.after <:+ ts ∧ opener.token.kind.isOpening = true

theorem isDelimiter_of_isOpening {kind : TokenKind} (h : kind.isOpening = true) :
    isDelimiter kind = true := by
  rw [isDelimiter, h, Bool.true_or]

theorem isDelimiter_of_isClosing {kind : TokenKind} (h : kind.isClosing = true) :
    isDelimiter kind = true := by
  rw [isDelimiter, h, Bool.or_true]

section Statements

variable {whole ts : List Token} {opened : List Opener} {t : Token}

theorem openAfter_opened {inner : List Opener} (hopened : Opened whole opened)
    (hts : t :: ts <:+ whole) (h : openAfter opened t ts = .ok inner) : Opened whole inner := by
  unfold openAfter at h
  split at h
  · rename_i hopening
    cases h
    exact List.forall_mem_cons.2 ⟨⟨hts, hopening⟩, hopened⟩
  · split at h
    · split at h
      · cases h
      · split at h
        · cases h
          exact (List.forall_mem_cons.1 hopened).2
        · cases h
    · cases h
      exact hopened

theorem openAfter_trouble {e : Trouble} (hts : t :: ts <:+ whole)
    (h : openAfter opened t ts = .error e) : TroubleIn whole e := by
  unfold openAfter at h
  split at h
  · cases h
  · split at h
    · rename_i hclosing
      split at h
      · cases h
        exact troubleIn_delimiter hts (isDelimiter_of_isClosing hclosing)
      · split at h
        · cases h
        · cases h
          exact troubleIn_delimiter hts (isDelimiter_of_isClosing hclosing)
    · cases h

theorem statementTokens_trouble {e : Trouble} (hopened : Opened whole opened)
    (hts : t :: ts <:+ whole) (h : plain (statementTokens opened t ts) = .error e) :
    TroubleIn whole e := by
  obtain ⟨n, hn⟩ : ∃ n, ts.length = n := ⟨_, rfl⟩
  induction n using Nat.strongRecOn generalizing opened t ts with
  | ind n ih =>
    rw [plain_statementTokens] at h
    rcases bind_eq_error.1 h with hopen | ⟨inner, hinner, h⟩
    · exact openAfter_trouble hts hopen
    · have hinside := openAfter_opened hopened hts hinner
      split at h
      · cases h
      · split at h
        · rename_i u us hafter
          have hmore : u :: us <:+ whole :=
            (suffix_of_afterTrivia hafter).trans ((List.suffix_cons t ts).trans hts)
          have hlt : us.length < n := hn ▸ length_lt_of_afterTrivia hafter
          exact ih _ hlt hinside hmore (error_of_map h) rfl
        · split at h
          · cases h
            obtain ⟨hopener, hopening⟩ := hinside _ (List.mem_cons_self ..)
            exact troubleIn_delimiter hopener (isDelimiter_of_isOpening hopening)
          · cases h

theorem item_trouble {e : Trouble} (h : plain (item t ts) = .error e) :
    TroubleIn (t :: ts) e := by
  have of_statement (h : plain (statement t ts) = .error e) : TroubleIn (t :: ts) e := by
    rw [plain_statement] at h
    exact statementTokens_trouble (List.forall_mem_nil _) List.suffix_rfl (error_of_map h)
  rw [plain_item] at h
  split at h
  · cases h
  · split at h
    · split at h
      · cases h
      · rename_i ahead hdeep
        cases h
        have htails := declaration_tails (t :: ts)
        rw [hdeep] at htails
        exact troubleIn_tooDeep htails maxNesting
      · exact of_statement h
    · exact of_statement h

theorem items_trouble {e : Trouble} (h : items ts = .error e) : TroubleIn ts e := by
  induction hn : ts.length using Nat.strongRecOn generalizing ts with
  | ind n ih =>
    rw [items_eq] at h
    split at h
    · cases h
    · rename_i t rest hafter
      have hrest := suffix_of_afterTrivia hafter
      rcases bind_eq_error.1 h with hitem | ⟨r, hr, h⟩
      · exact (item_trouble hitem).mono hrest
      · have hlt : r.2.length < n := by
          have := hrest.length_le
          have := length_lt_of_plain hr
          rw [List.length_cons] at *
          omega
        have hleft : r.2 <:+ t :: rest := ⟨_, (item_consumes hr).symm⟩
        exact (ih _ hlt (error_of_map h) rfl).mono (hleft.trans hrest)

end Statements

end PackageManifest.Proofs.Grammar
