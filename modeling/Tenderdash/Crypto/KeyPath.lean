import Tenderdash.Types.Basic
import Tenderdash.Lib.Url

/-!
# Key paths of generalized Merkle proofs

A key path (crypto/merkle/proof_key_path.go) writes the keys of the layers of a proof as
`/`-separated segments, each URL-encoded or, behind `x:`, hex-encoded, and `KeyPathToKeys`
reads them back.  The package documentation asks that the decoded keys be the same whatever
the encodings.  They are, except for a URL-encoded key that itself begins with `x:`:
`PathEscape` keeps both bytes, and `KeyPathToKeys` then reads the segment as hex
(`keyPathToKeys_string_iff`).  The light client's RPC proofs URL-encode the keys they query.

The proof follows the path: `String` writes `/` before each segment
(`toString_eq_flatMap`), no segment holds a `/` (`slash_not_mem_body`), so splitting at `/`
gives the segments back, and each segment decodes to its key unless it is such a key
(`decodePart_body_eq_ok_iff`).
-/

namespace Tenderdash.Merkle

/-- `keyEncoding`: `KeyEncodingURL`, `KeyEncodingHex`, and `KeyEncodingMax`, the number of
known encodings, which `String` rejects as it rejects every other value. -/
inductive KeyEncoding where
  | url
  | hex
  | max
deriving DecidableEq, Repr

/-- `Key`: a key and its encoding. -/
structure Key where
  name : Bytes
  enc : KeyEncoding
deriving DecidableEq, Repr

/-- `KeyPath`. -/
abbrev KeyPath := List Key

/-- `AppendKey`. -/
def KeyPath.appendKey (pth : KeyPath) (key : Bytes) (enc : KeyEncoding) : KeyPath :=
  pth ++ [⟨key, enc⟩]

/-- The bytes `x:` that begin a hex-encoded segment. -/
def hexMarker : Bytes := ['x'.toUInt8, ':'.toUInt8]

/-- The segment `String` writes for a key, after its `/`. -/
def Key.segment (key : Key) : Except String Bytes :=
  match key.enc with
  | .url => .ok (Url.pathEscape key.name)
  | .hex => .ok (hexMarker ++ Hex.encodeUpper key.name)
  | .max => .error "unexpected key encoding type"

/-- `String`: `/` and the segment of each key; a key of an unknown encoding panics. -/
def KeyPath.toString : KeyPath → Except String Bytes
  | [] => .ok []
  | key :: pth => do
    let seg ← key.segment
    let res ← KeyPath.toString pth
    pure ('/'.toUInt8 :: seg ++ res)

/-- The errors of `KeyPathToKeys`. -/
inductive KeyPathError where
  /-- "key path string must start with a forward slash '/'" -/
  | noSlash
  /-- "decoding hex-encoded part #%d: /%s: %w" -/
  | hexPart (i : ℕ) (part : Bytes) (err : Hex.DecodeError)
  /-- "decoding url-encoded part #%d: /%s: %w" -/
  | urlPart (i : ℕ) (part : Bytes) (err : Url.EscapeError)
deriving DecidableEq, Repr

/-- The body of the loop of `KeyPathToKeys`, on part `i`. -/
def decodePart (i : ℕ) (part : Bytes) : Except KeyPathError Bytes :=
  if hexMarker <+: part then (Hex.decodeString (part.drop 2)).mapError (.hexPart i part)
  else (Url.pathUnescape part).mapError (.urlPart i part)

/-- The loop of `KeyPathToKeys`, from part `i`. -/
def decodeParts : ℕ → List Bytes → Except KeyPathError (List Bytes)
  | _, [] => .ok []
  | i, part :: parts => do
    let key ← decodePart i part
    let keys ← decodeParts (i + 1) parts
    pure (key :: keys)

/-- `KeyPathToKeys`. -/
def keyPathToKeys (path : Bytes) : Except KeyPathError (List Bytes) :=
  match path with
  | c :: rest =>
    if c = '/'.toUInt8 then decodeParts 0 (rest.splitOn '/'.toUInt8) else .error .noSlash
  | [] => .error .noSlash

/-! ## Writing the path -/

/-- The segment of a key of a known encoding. -/
def Key.body (key : Key) : Bytes :=
  match key.enc with
  | .url => Url.pathEscape key.name
  | .hex => hexMarker ++ Hex.encodeUpper key.name
  | .max => []

theorem Key.segment_eq {key : Key} (h : key.enc ≠ .max) : key.segment = .ok key.body := by
  unfold Key.segment Key.body
  split
  · rfl
  · rfl
  · contradiction

/-- Building a path by `AppendKey` lists its keys in order. -/
theorem foldl_appendKey (keys : List (Bytes × KeyEncoding)) (kp : KeyPath) :
    keys.foldl (fun kp k ↦ kp.appendKey k.1 k.2) kp = kp ++ keys.map fun k ↦ ⟨k.1, k.2⟩ := by
  induction keys generalizing kp with
  | nil => simp
  | cons k keys ih =>
    rw [List.foldl_cons, ih]
    simp [KeyPath.appendKey]

theorem toString_eq_flatMap : ∀ {kp : KeyPath}, (∀ k ∈ kp, k.enc ≠ .max) →
    kp.toString = .ok (kp.flatMap fun k ↦ '/'.toUInt8 :: k.body)
  | [], _ => rfl
  | k :: kp, h => by
    rw [KeyPath.toString, Key.segment_eq (h k List.mem_cons_self),
      toString_eq_flatMap fun k' hk' ↦ h k' (List.mem_cons_of_mem _ hk')]
    rfl

/-- Writing a separator before each of a non-empty list of segments is the separator, then
the segments joined by it. -/
theorem flatMap_cons_eq_intercalate {α β : Type} (a : β) (f : α → List β) :
    ∀ {xs : List α}, xs ≠ [] → (xs.flatMap fun x ↦ a :: f x) = a :: [a].intercalate (xs.map f)
  | [x], _ => by simp
  | x :: y :: xs, _ => by
    rw [List.flatMap_cons, flatMap_cons_eq_intercalate a f (List.cons_ne_nil y xs)]
    simp [List.intercalate_cons_cons]

theorem slash_not_mem_body (key : Key) : '/'.toUInt8 ∉ key.body := by
  unfold Key.body
  split
  · exact Url.slash_not_mem_pathEscape _
  · intro h
    rcases List.mem_append.mp h with h | h
    · revert h
      decide
    · exact absurd (Hex.isSome_of_mem_encodeUpper h) (by decide)
  · simp

/-- A written path is `/`, then the segments joined by `/`. -/
theorem toString_eq_intercalate {kp : KeyPath} (hne : kp ≠ []) (h : ∀ k ∈ kp, k.enc ≠ .max) :
    kp.toString = .ok ('/'.toUInt8 :: ['/'.toUInt8].intercalate (kp.map Key.body)) := by
  rw [toString_eq_flatMap h, flatMap_cons_eq_intercalate _ _ hne]

/-- Reading such a path splits it back into its segments. -/
theorem keyPathToKeys_intercalate {kp : KeyPath} (hne : kp ≠ []) :
    keyPathToKeys ('/'.toUInt8 :: ['/'.toUInt8].intercalate (kp.map Key.body)) =
      decodeParts 0 (kp.map Key.body) := by
  have hsep : ∀ l ∈ kp.map Key.body, '/'.toUInt8 ∉ l := by
    intro l hl
    obtain ⟨k, -, rfl⟩ := List.mem_map.mp hl
    exact slash_not_mem_body k
  rw [keyPathToKeys, if_pos rfl, List.splitOn_intercalate _ hsep (by simpa using hne)]

/-! ## Reading the segments back -/

theorem hexMarker_prefix_pathEscape_iff {s : Bytes} :
    hexMarker <+: Url.pathEscape s ↔ hexMarker <+: s :=
  Url.prefix_pathEscape_iff (by decide +kernel)

/-- A URL-encoded key that begins with `x:` is read as hex, and never as itself: what a hex
decode accepts holds no `%`, so nothing of the key was escaped, and it is then too short. -/
theorem decodePart_pathEscape_ne (i : ℕ) {name : Bytes} (hx : hexMarker <+: name) :
    decodePart i (Url.pathEscape name) ≠ .ok name := by
  obtain ⟨t, rfl⟩ := hx
  have hesc : Url.pathEscape (hexMarker ++ t) = hexMarker ++ Url.pathEscape t := by
    rw [hexMarker, List.cons_append, List.cons_append, List.nil_append,
      Url.pathEscape_cons_of_not rfl, Url.pathEscape_cons_of_not rfl]
    rfl
  rw [decodePart, if_pos (hesc ▸ List.prefix_append _ _), hesc]
  intro h
  have hdec : Hex.decodeString (Url.pathEscape t) = .ok (hexMarker ++ t) := by
    simpa [hexMarker] using h
  obtain ⟨hlen, hdig⟩ := Hex.decodeString_eq_ok hdec
  have hself : Url.pathEscape t = t := Url.pathEscape_eq_self fun c hc hpc ↦ by
    have hc' := hdig c hc
    rw [hpc] at hc'
    exact absurd hc' (by decide)
  rw [hself] at hlen
  simp [hexMarker] at hlen
  omega

/-- A segment decodes to its key, except the segment of a URL-encoded key that begins with
`x:`. -/
theorem decodePart_body_eq_ok_iff (i : ℕ) {key : Key} (h : key.enc ≠ .max) :
    decodePart i key.body = .ok key.name ↔ ¬ (key.enc = .url ∧ hexMarker <+: key.name) := by
  rcases key with ⟨name, _ | _ | _⟩
  · by_cases hx : hexMarker <+: name
    · simp only [true_and, hx, not_true, iff_false]
      exact decodePart_pathEscape_ne i hx
    · have hx' : ¬ hexMarker <+: Url.pathEscape name := hexMarker_prefix_pathEscape_iff.not.mpr hx
      simp [Key.body, decodePart, hx', hx, Url.pathUnescape_pathEscape]
  · have hpre : hexMarker <+: hexMarker ++ Hex.encodeUpper name := List.prefix_append _ _
    have hdrop : (hexMarker ++ Hex.encodeUpper name).drop 2 = Hex.encodeUpper name := rfl
    simp [Key.body, decodePart, hpre, hdrop, Hex.decodeString_encodeUpper]
  · contradiction

theorem decodeParts_cons_eq_ok {i : ℕ} {part key : Bytes} {parts keys : List Bytes} :
    decodeParts i (part :: parts) = .ok (key :: keys) ↔
      decodePart i part = .ok key ∧ decodeParts (i + 1) parts = .ok keys := by
  simp [decodeParts]

/-- The loop reads the segments back as their keys exactly when no URL-encoded key begins
with `x:`. -/
theorem decodeParts_map_body_eq_ok_iff : ∀ {kp : KeyPath} (i : ℕ), (∀ k ∈ kp, k.enc ≠ .max) →
    (decodeParts i (kp.map Key.body) = .ok (kp.map (·.name)) ↔
      ∀ k ∈ kp, ¬ (k.enc = .url ∧ hexMarker <+: k.name))
  | [], _, _ => by simp [decodeParts]
  | k :: kp, i, h => by
    rw [List.map_cons, List.map_cons, decodeParts_cons_eq_ok,
      decodePart_body_eq_ok_iff i (h k List.mem_cons_self),
      decodeParts_map_body_eq_ok_iff (i + 1) fun k' hk' ↦ h k' (List.mem_cons_of_mem _ hk'),
      List.forall_mem_cons]

/-- `KeyPathToKeys` reads back the keys of a non-empty path built by `AppendKey` with URL and
hex encodings exactly when no URL-encoded key begins with `x:`. -/
theorem keyPathToKeys_string_iff (keys : List (Bytes × KeyEncoding)) (hne : keys ≠ [])
    (henc : ∀ k ∈ keys, k.2 ≠ .max) :
    ∃ path, (keys.foldl (fun (kp : KeyPath) k ↦ kp.appendKey k.1 k.2) []).toString = .ok path ∧
      (keyPathToKeys path = .ok (keys.map (·.1)) ↔
        ∀ k ∈ keys, k.2 = .url → ¬ hexMarker <+: k.1) := by
  rw [foldl_appendKey, List.nil_append]
  set kp : KeyPath := keys.map fun k ↦ ⟨k.1, k.2⟩ with hkp
  have hkp_ne : kp ≠ [] := by simpa [hkp] using hne
  have hkp_enc : ∀ k ∈ kp, k.enc ≠ .max := by
    rw [hkp, List.forall_mem_map]
    exact henc
  have hnames : keys.map (·.1) = kp.map (·.name) := by simp [hkp]
  refine ⟨_, toString_eq_intercalate hkp_ne hkp_enc, ?_⟩
  rw [keyPathToKeys_intercalate hkp_ne, hnames, decodeParts_map_body_eq_ok_iff 0 hkp_enc, hkp,
    List.forall_mem_map]
  simp only [not_and]

/-- The key `x:ab`, URL-encoded. -/
def urlKeyLikeHex : List (Bytes × KeyEncoding) :=
  [(['x'.toUInt8, ':'.toUInt8, 'a'.toUInt8, 'b'.toUInt8], .url)]

/-- The URL-encoded key `x:ab` is written as `/x:ab`, and read back as the one byte `0xAB`. -/
theorem keyPathToKeys_string_reads_url_key_as_hex :
    urlKeyLikeHex ≠ [] ∧ (∀ k ∈ urlKeyLikeHex, k.2 ≠ .max) ∧
      ∃ path, (urlKeyLikeHex.foldl (fun (kp : KeyPath) k ↦ kp.appendKey k.1 k.2) []).toString =
          .ok path ∧
        keyPathToKeys path ≠ .ok (urlKeyLikeHex.map (·.1)) ∧ keyPathToKeys path = .ok [[0xAB]] := by
  have hne : urlKeyLikeHex ≠ [] := by decide
  have henc : ∀ k ∈ urlKeyLikeHex, k.2 ≠ .max := by decide
  obtain ⟨path, hpath, hiff⟩ := keyPathToKeys_string_iff urlKeyLikeHex hne henc
  have hwritten : path = ['/'.toUInt8, 'x'.toUInt8, ':'.toUInt8, 'a'.toUInt8, 'b'.toUInt8] := by
    have h : (urlKeyLikeHex.foldl (fun (kp : KeyPath) k ↦ kp.appendKey k.1 k.2) []).toString =
        .ok ['/'.toUInt8, 'x'.toUInt8, ':'.toUInt8, 'a'.toUInt8, 'b'.toUInt8] := by decide
    rw [h] at hpath
    exact (Except.ok.inj hpath).symm
  refine ⟨hne, henc, path, hpath, fun h ↦ absurd (hiff.mp h) (by decide), ?_⟩
  subst hwritten
  decide

end Tenderdash.Merkle
