import MessagePattern.Message.Printer
import MessagePattern.Proofs.Soundness

/-! Patterns of messages.

The canonical messages are those that patterns stand for. Whatever is read is canonical
(`canonical_of_parse`), and the pattern that is printed for a canonical message is read
as that message (`parse_print`).

Printing is compared with the grammar, so neither direction looks at the reader: what is
printed for a part is derived wherever something follows that the part cannot take in
(`reads_quote`, `reads_printChars`). -/
namespace MessagePattern.Pattern

open Lexis Integer

/-! ### Text -/

/-- A character that needs no quoting goes on with a text. -/
theorem endsText_eq_false {inPlural : Bool} {c : Char} (h : needsQuoting inPlural c = false)
    (nested : Bool) : endsText nested inPlural c = false := by
  simp only [needsQuoting, Bool.or_eq_false_iff] at h
  obtain ⟨⟨hopen, hclose⟩, hmark⟩ := h
  rw [endsText, hopen, hclose, hmark]
  cases nested <;> rfl

theorem StopsText.ne_apostrophe {nested inPlural : Bool} {rest : List Char}
    (h : StopsText nested inPlural rest) : rest.head? ≠ some '\'' := by
  intro hq
  have := h '\'' hq
  rw [endsText_apostrophe] at this
  cases this

/-- A text is derived from what is quoted for it. Where a span is open it is the rest of
the span and a text behind that. -/
theorem reads_quote {nested inPlural : Bool} {rest : List Char}
    (hstops : StopsText nested inPlural rest) (t : List Char) :
    ReadsText nested inPlural (quote inPlural false t ++ rest) t rest ∧
      ∃ s cs u, t = s ++ u ∧ ReadsSpan (quote inPlural true t ++ rest) s cs ∧
        ReadsText nested inPlural cs u rest := by
  induction t with
  | nil => exact ⟨.stop hstops, [], rest, [], rfl, .close hstops.ne_apostrophe, .stop hstops⟩
  | cons c t ih =>
    obtain ⟨hplain, s, cs, u, ht, hspan, htext⟩ := ih
    by_cases hc : c = '\''
    · subst hc
      exact ⟨.doubled hplain, '\'' :: s, cs, u, congrArg _ ht, .doubled hspan, htext⟩
    by_cases hq : needsQuoting inPlural c = true
    · have hchar : ReadsSpan (c :: (quote inPlural true t ++ rest)) (c :: s) cs := .char hc hspan
      simp only [quote, if_neg hc, if_pos hq]
      refine ⟨?_, c :: s, cs, u, congrArg _ ht, hchar, htext⟩
      rw [ht]
      exact .quoted ⟨c, rfl, hq⟩ (ht ▸ hchar) htext
    · have he := endsText_eq_false (by simpa using hq) nested
      have hchar : ReadsText nested inPlural (c :: (quote inPlural false t ++ rest)) (c :: t)
          rest := .char hc he hplain
      simp only [quote, if_neg hc, if_neg hq]
      refine ⟨hchar, [], _, c :: t, rfl, .close ?_, hchar⟩
      exact fun h => hc (Option.some.inj h)

/-! ### Tokens -/

theorem readsSpaced_self (token rest : List Char) : ReadsSpaced token (token ++ rest) rest :=
  .mk IsBlank.nil IsBlank.nil

theorem readsSpaced_space (token rest : List Char) :
    ReadsSpaced token (' ' :: (token ++ rest)) rest :=
  .mk isBlank_space IsBlank.nil

theorem readsKey_of_isKey {inPlural : Bool} {k : String} (h : IsKey inPlural k.toList) :
    ReadsKey inPlural k.toList k := by
  generalize hk : k.toList = key at h
  obtain rfl : k = String.ofList key := by rw [← hk, String.ofList_toList]
  cases h with
  | word hw => exact .word hw
  | exact hd =>
    have hread := ReadsKey.exact hd.literal
    rw [exactKey, ← isDecimal_iff.1 hd] at hread
    exact hread

theorem reads_printOffset (n : Int64) {rest : List Char} (he : EndsWord rest) :
    ReadsOffset (printOffset n ++ rest) n rest := by
  unfold printOffset
  by_cases hn : n = 0
  · subst hn
    exact .absent
  · rw [if_neg hn]
    have hread : ReadsOffset ([' '] ++ (offsetWord.toList ++ ':' :: ([] ++ (digits n ++ rest)))) n
        rest := .written isBlank_space IsBlank.nil (isDecimal_iff.2 rfl).literal he
    simpa using hread

theorem reads_printSimple {a : String} {t : ArgumentType} {style : ArgumentStyle}
    (ha : IsArgumentName a.toList) (ht : t ∈ ArgumentType.spelled)
    (hstyle : style = .default ∨ style ∈ ArgumentStyle.spelled) (rest : List Char) :
    ReadsArgument (printSimple a t style ++ rest) (.simple a t style) rest := by
  have hdefault : t ≠ .default := by
    intro h
    subst h
    exact absurd ht (by decide)
  rw [printSimple, if_neg hdefault]
  rcases hstyle with rfl | hs
  · have hread : ReadsArgument ('{' :: (a.toList ++
        ',' :: ' ' :: (t.keyword.toList ++ '}' :: rest))) (.simple a t .default) rest :=
      .simple ha ht (readsSpaced_self _ _) (readsSpaced_space _ _) .default
    simpa [ArgumentStyle.keyword] using hread
  · have hne : style.keyword ≠ "" := by
      intro h
      exact (isWord_style hs).ne_nil (by rw [h]; rfl)
    rw [if_neg hne]
    have hread : ReadsArgument ('{' :: (a.toList ++ ',' :: ' ' :: (t.keyword.toList ++
        ',' :: ' ' :: (style.keyword.toList ++ '}' :: rest)))) (.simple a t style) rest :=
      .simple ha ht (readsSpaced_self _ _) (readsSpaced_space _ _)
        (.keyword hs (readsSpaced_space _ _))
    simpa using hread

/-! ### Messages -/

/-- The message is derived from what is printed for it, wherever it may stand. -/
def Printable (m : Message) : Prop :=
  ∀ (nested inPlural : Bool) (rest : List Char), Message.Canonical inPlural m →
    EndsMessage nested rest →
    ReadsMessage nested inPlural (Message.printChars inPlural m ++ rest) m rest

/-- What is printed behind a text is no text. -/
theorem stops_printChars {nested inPlural : Bool} {m : Message} {rest : List Char}
    (hm : Message.Canonical inPlural m) (hhead : ∀ q ∈ m.head?, q.isText = false)
    (hend : EndsMessage nested rest) :
    StopsText nested inPlural (Message.printChars inPlural m ++ rest) := by
  have hbrace : ∀ cs, StopsText nested inPlural ('{' :: cs) := by
    intro cs c hc
    obtain rfl := Option.some.inj hc
    rfl
  cases m with
  | nil => exact hend.stops inPlural
  | cons q ps =>
    cases q with
    | text value => exact nomatch hhead _ rfl
    | plain a => exact hbrace _
    | simple a t style =>
      simp only [Message.printChars, Part.printChars, printSimple]
      split <;> exact hbrace _
    | select a bs => exact hbrace _
    | plural a o n bs => exact hbrace _
    | marker =>
      obtain rfl : inPlural = true := hm.1
      intro c hc
      obtain rfl := Option.some.inj hc
      cases nested <;> rfl

theorem reads_printBranches {inPlural : Bool} {bs : Branches} (hp : ∀ b ∈ bs, Printable b.2)
    (hbs : Branches.Canonical inPlural bs) (rest : List Char) :
    ReadsBranches inPlural (Branches.printChars inPlural bs ++ '}' :: rest) bs rest := by
  induction bs with
  | nil => exact .close IsBlank.nil
  | cons b bs ih =>
    obtain ⟨k, m⟩ := b
    obtain ⟨hk, hm, hbs⟩ := hbs
    have hmessage : ReadsMessage true inPlural (Message.printChars inPlural m ++
        '}' :: (Branches.printChars inPlural bs ++ '}' :: rest)) m
        ('}' :: (Branches.printChars inPlural bs ++ '}' :: rest)) :=
      hp (k, m) List.mem_cons_self true inPlural _ hm rfl
    have hread := ReadsBranches.branch (readsKey_of_isKey hk) (readsSpaced_space _ _) hmessage
      (ih (fun b hb => hp b (List.mem_cons_of_mem _ hb)) hbs)
    simpa [Branches.printChars] using hread

theorem endsWord_printBranches (inPlural : Bool) (bs : Branches) (rest : List Char) :
    EndsWord (Branches.printChars inPlural bs ++ '}' :: rest) := by
  cases bs with
  | nil => exact endsWord_cons (by decide)
  | cons b bs => exact endsWord_cons (by decide)

theorem reads_printSelect {a : String} {bs : Branches} (ha : IsArgumentName a.toList)
    (hne : bs ≠ []) (hasc : Ascending bs) (hp : ∀ b ∈ bs, Printable b.2)
    (hbs : Branches.Canonical false bs) (inPlural : Bool) (rest : List Char) :
    ReadsArgument ((Part.select a bs).printChars inPlural ++ rest) (.select a bs) rest := by
  have hread := ReadsArgument.select ha (readsSpaced_self _ _) (readsSpaced_space _ _)
    (reads_printBranches hp hbs rest) hne hasc (.refl _)
  simpa [Part.printChars, printHead] using hread

theorem reads_printPlural {a : String} {o : Bool} {n : Int64} {bs : Branches}
    (ha : IsArgumentName a.toList) (hne : bs ≠ []) (hasc : Ascending bs)
    (hp : ∀ b ∈ bs, Printable b.2) (hbs : Branches.Canonical true bs) (inPlural : Bool)
    (rest : List Char) :
    ReadsArgument ((Part.plural a o n bs).printChars inPlural ++ rest) (.plural a o n bs) rest := by
  have hread := ReadsArgument.plural ha (readsSpaced_self _ _)
    (readsSpaced_space (pluralKeyword o).toList _)
    (reads_printOffset n (endsWord_printBranches true bs rest))
    (reads_printBranches hp hbs rest) hne hasc (.refl _)
  simpa [Part.printChars, printHead] using hread

/-- **A canonical message is derived from its pattern**, whatever closes it. -/
theorem reads_printChars (m : Message) : Printable m := by
  have hargument : ∀ {p : Part} {m : Message}, Printable m → (∀ inPlural rest,
      p.Canonical inPlural → ReadsArgument (p.printChars inPlural ++ rest) p rest) →
      Printable (p :: m) := by
    intro p m ih hp nested inPlural rest hm hend
    rw [Message.printChars, List.append_assoc]
    exact .argument (hp inPlural _ hm.1) (ih nested inPlural rest hm.2.2 hend)
  induction m using Message.induction with
  | nil => exact fun _ _ _ _ _ => .nil
  | text value rest ih =>
    intro nested inPlural behind hm hend
    have hstops := stops_printChars hm.2.2 (fun q hq => hm.2.1 q hq rfl) hend
    have hvalue : value.toList ≠ [] := fun h => hm.1 (String.toList_eq_nil_iff.1 h)
    have hread := ReadsMessage.text (reads_quote hstops value.toList).1 hvalue
      (ih nested inPlural behind hm.2.2 hend)
    rw [String.ofList_toList] at hread
    rw [Message.printChars, List.append_assoc]
    exact hread
  | plain a rest ih =>
    refine hargument ih fun inPlural behind ha => ?_
    have hread := ReadsArgument.plain ha (readsSpaced_self a.toList ('}' :: behind))
    simpa [Part.printChars] using hread
  | simple a t style rest ih =>
    exact hargument ih fun _ behind h => reads_printSimple h.1 h.2.1 h.2.2 behind
  | select a bs rest ihb ih =>
    exact hargument ih fun inPlural behind h =>
      reads_printSelect h.1 h.2.1 h.2.2.1 ihb h.2.2.2 inPlural behind
  | plural a o n bs rest ihb ih =>
    exact hargument ih fun inPlural behind h =>
      reads_printPlural h.1 h.2.1 h.2.2.1 ihb h.2.2.2 inPlural behind
  | marker rest ih =>
    intro nested inPlural behind hm hend
    obtain rfl : inPlural = true := hm.1
    exact .marker (ih nested true behind hm.2.2 hend)

/-! ### Whole patterns -/

/-- **A canonical message is read back from its pattern**, at any limit that its branches
nest within. -/
theorem parse_print {d : Nat} {m : Message} (hm : Message.Canonical false m)
    (hd : Message.depth m ≤ d) : parse ⟨d, none⟩ m.print = .ok m := by
  refine parse_of_readsMessage ?_ hd
  have hread := reads_printChars m false false [] hm rfl
  rw [List.append_nil] at hread
  rw [Message.print, String.toList_ofList]
  exact hread

theorem parse_print_nested :
    parse ⟨2, none⟩ (Message.print [.text "it's \x7b", .plural "n" false 1 [("=-1", [.marker,
        .text "#'"]), ("other", [.select "g" [("a", [.text "\x7d#", .plain "x"])]])]]) =
      .ok [.text "it's \x7b", .plural "n" false 1 [("=-1", [.marker, .text "#'"]),
        ("other", [.select "g" [("a", [.text "\x7d#", .plain "x"])]])]] :=
  parse_print (by decide) (by decide)

/-- **What is read is canonical**, and none of its branches nests too deep. -/
theorem canonical_of_parse {limits : Limits} {pattern : String} {m : Message}
    (h : parse limits pattern = .ok m) :
    Message.Canonical false m ∧ Message.depth m ≤ limits.maxDepth := by
  obtain ⟨hread, hd⟩ := readsMessage_of_parse h
  exact ⟨hread.canonical, hd⟩

theorem canonical_of_parse_nested :
    Message.Canonical false [.plural "n" false 1 [("=-7", [.marker, .text "s'"]),
      ("other", [.select "g" [("a", [.text "#"])]])], .text "\x7b"] := by
  have h : parse ⟨2, none⟩ ("\x7bn,plural,offset:01=-007\x7b#s''\x7d" ++
      "other \x7b\x7bg , select, a\x7b#\x7d\x7d\x7d\x7d'\x7b") =
      .ok [.plural "n" false 1 [("=-7", [.marker, .text "s'"]),
        ("other", [.select "g" [("a", [.text "#"])]])], .text "\x7b"] := rfl
  exact (canonical_of_parse h).1

end MessagePattern.Pattern
