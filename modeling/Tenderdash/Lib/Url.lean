import Tenderdash.Lib.Hex

/-!
# Percent-encoding of URL path segments

`net/url`'s `PathEscape` writes every byte a path segment may not hold as `%` and two
upper-case hex digits, and `PathUnescape` reads such escapes back.  Both work byte by byte,
so they are defined on every byte string, UTF-8 or not.  `pathUnescape_pathEscape` is the
round trip.  `pathEscape` never writes a `/` (`slash_not_mem_pathEscape`), it keeps a prefix
of bytes it does not escape (`prefix_pathEscape_iff`), and an escaped string without a `%`
is the string itself (`pathEscape_eq_self`).
-/

namespace Url

/-- `shouldEscape(c, encodePathSegment)`: letters, digits and `-_.~` stay, and of the
reserved bytes `$&+,/:;=?@` a path segment escapes `/`, `;`, `,` and `?` only. -/
def shouldEscape (c : UInt8) : Bool :=
  if 'a'.toUInt8 ≤ c ∧ c ≤ 'z'.toUInt8 ∨ 'A'.toUInt8 ≤ c ∧ c ≤ 'Z'.toUInt8 ∨
      '0'.toUInt8 ≤ c ∧ c ≤ '9'.toUInt8 then false
  else if c ∈ ['-', '_', '.', '~'].map Char.toUInt8 then false
  else if c ∈ ['$', '&', '+', ',', '/', ':', ';', '=', '?', '@'].map Char.toUInt8 then
    c ∈ ['/', ';', ',', '?'].map Char.toUInt8
  else true

/-- `PathEscape`: each byte to escape becomes `%` and its two upper-case hex digits. -/
def pathEscape (s : List UInt8) : List UInt8 :=
  s.flatMap fun c ↦
    if shouldEscape c then
      ['%'.toUInt8, Hex.upperDigit (c.toNat / 16), Hex.upperDigit (c.toNat % 16)]
    else [c]

/-- `EscapeError`: a `%` that two hex digits do not follow, with at most the two bytes after
it. -/
structure EscapeError where
  s : List UInt8
deriving DecidableEq, Repr

/-- `PathUnescape`, `unescape(s, encodePathSegment)`.  Its first pass rejects the first `%`
that two hex digits do not follow, and its second decodes the escapes; one pass does both
here.  A `+` stands for itself in a path. -/
def pathUnescape : List UInt8 → Except EscapeError (List UInt8)
  | [] => .ok []
  | c :: rest =>
    if c = '%'.toUInt8 then
      match rest with
      | a :: b :: rest' =>
        match Hex.digitValue a, Hex.digitValue b with
        | some x, some y => ((x <<< 4 ||| y) :: ·) <$> pathUnescape rest'
        | _, _ => .error ⟨[c, a, b]⟩
      | _ => .error ⟨c :: rest⟩
    else (c :: ·) <$> pathUnescape rest

theorem shouldEscape_percent : shouldEscape '%'.toUInt8 = true := rfl

theorem shouldEscape_slash : shouldEscape '/'.toUInt8 = true := rfl

theorem pathEscape_cons (c : UInt8) (s : List UInt8) :
    pathEscape (c :: s) =
      (if shouldEscape c then
        ['%'.toUInt8, Hex.upperDigit (c.toNat / 16), Hex.upperDigit (c.toNat % 16)]
      else [c]) ++ pathEscape s :=
  List.flatMap_cons

theorem pathEscape_cons_of_not {c : UInt8} (hc : shouldEscape c = false) (s : List UInt8) :
    pathEscape (c :: s) = c :: pathEscape s := by
  simp [pathEscape_cons, hc]

theorem ne_percent_of_not {c : UInt8} (hc : shouldEscape c = false) : c ≠ '%'.toUInt8 := by
  rintro rfl
  exact absurd shouldEscape_percent (by simp [hc])

/-- A byte other than `%` is read as itself. -/
theorem pathUnescape_cons_of_ne {c : UInt8} (hc : c ≠ '%'.toUInt8) (rest : List UInt8) :
    pathUnescape (c :: rest) = (c :: ·) <$> pathUnescape rest := by
  rw [pathUnescape.eq_def]
  dsimp only
  rw [if_neg hc]

/-- Unescaping what `pathEscape` wrote gives the bytes back. -/
theorem pathUnescape_pathEscape : ∀ s : List UInt8, pathUnescape (pathEscape s) = .ok s
  | [] => rfl
  | c :: s => by
    rw [pathEscape_cons]
    cases hc : shouldEscape c
    · rw [if_neg (by simp), List.singleton_append, pathUnescape_cons_of_ne (ne_percent_of_not hc),
        pathUnescape_pathEscape s]
      rfl
    · have hb := c.toNat_lt
      rw [if_pos rfl, List.cons_append, List.cons_append, List.cons_append, List.nil_append,
        pathUnescape, if_pos rfl, Hex.digitValue_upperDigit (by omega),
        Hex.digitValue_upperDigit (by omega)]
      dsimp only
      rw [Hex.shiftLeft_or_halves, pathUnescape_pathEscape s]
      rfl

/-- What `pathEscape` writes is a byte it keeps, or a `%` and a hex digit of an escape. -/
theorem mem_pathEscape {s : List UInt8} {d : UInt8} (h : d ∈ pathEscape s) :
    shouldEscape d = false ∨ d = '%'.toUInt8 ∨ (Hex.digitValue d).isSome := by
  obtain ⟨c, -, hd⟩ := List.mem_flatMap.mp h
  have hb := c.toNat_lt
  split at hd
  · simp only [List.mem_cons, List.not_mem_nil, or_false] at hd
    rcases hd with rfl | rfl | rfl
    · exact .inr (.inl rfl)
    · exact .inr (.inr (Hex.isSome_digitValue_upperDigit (by omega)))
    · exact .inr (.inr (Hex.isSome_digitValue_upperDigit (by omega)))
  · rename_i hc
    rw [List.mem_singleton] at hd
    subst hd
    exact .inl (by simpa using hc)

/-- `pathEscape` never writes a `/`, so an escaped segment stays one segment of a path. -/
theorem slash_not_mem_pathEscape (s : List UInt8) : '/'.toUInt8 ∉ pathEscape s := by
  intro h
  rcases mem_pathEscape h with h | h | h
  · exact absurd shouldEscape_slash (by simp [h])
  · cases h
  · cases h

/-- A prefix of bytes that stay is a prefix of the escaped string exactly when it is one of
the string. -/
theorem prefix_pathEscape_iff : ∀ {p : List UInt8}, (∀ c ∈ p, shouldEscape c = false) →
    ∀ {s : List UInt8}, p <+: pathEscape s ↔ p <+: s
  | [], _, s => by simp
  | a :: p, hp, [] => by simp [pathEscape]
  | a :: p, hp, c :: s => by
    have ha : shouldEscape a = false := hp a List.mem_cons_self
    cases hc : shouldEscape c
    · rw [pathEscape_cons_of_not hc, List.cons_prefix_cons, List.cons_prefix_cons,
        prefix_pathEscape_iff (fun c hc ↦ hp c (List.mem_cons_of_mem _ hc))]
    · have hac : a ≠ c := fun h ↦ by simp [h, hc] at ha
      simp only [pathEscape_cons, hc, if_true, List.cons_append, List.cons_prefix_cons,
        ne_percent_of_not ha, false_and, hac]

/-- An escaped string without a `%` escaped nothing. -/
theorem pathEscape_eq_self : ∀ {s : List UInt8}, (∀ c ∈ pathEscape s, c ≠ '%'.toUInt8) →
    pathEscape s = s
  | [], _ => rfl
  | c :: s, h => by
    cases hc : shouldEscape c
    · rw [pathEscape_cons_of_not hc] at h ⊢
      rw [pathEscape_eq_self fun d hd ↦ h d (List.mem_cons_of_mem _ hd)]
    · have hpercent : '%'.toUInt8 ∈ pathEscape (c :: s) := by
        simp [pathEscape_cons, hc]
      exact absurd rfl (h _ hpercent)

end Url
