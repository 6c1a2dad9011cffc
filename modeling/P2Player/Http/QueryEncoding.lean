import P2Player.Http.PercentEncoding

/-!
# Encoded queries

A client writes a path and a map into a URI: it percent-encodes them, and puts the separators `?`,
`&` and `=` between them.  `HttpHandler.parseRequest` splits at the separators before it decodes.

* `unreserved`, `percentEncode`: the encoding of a text over the characters below 256;
* `percentDecoded_percentEncode`: it is undone by `decodePercent`;
* `Query`, `encodeUri`: a map of parameters, and the URI;
* `parseUri_encodeUri`: the URI is parsed to the path and the map.
-/

namespace P2Player.Http

open Java Program

/-! ### Encoding -/

/-- The characters that are not encoded. -/
def unreserved (c : Char) : Bool := c.isAlphanum || c ∈ ['-', '.', '_', '~']

/-- A hexadecimal digit, in upper or lower case. -/
def hexDigitChar (upper : Bool) (n : ℕ) : Char :=
  Char.ofNat (if n < 10 then 0x30 + n else if upper then 0x41 + (n - 10) else 0x61 + (n - 10))

/-- A character or its escape. -/
def encodeChar (upper : Bool) (c : Char) : JString :=
  if unreserved c then [c]
  else ['%', hexDigitChar upper (c.toNat / 16), hexDigitChar upper (c.toNat % 16)]

/-- Percent encoding. -/
def percentEncode (upper : Bool) (s : JString) : JString := s.flatMap (encodeChar upper)

/-- A text over the characters below 256. -/
def IsLatin (s : JString) : Prop := ∀ c ∈ s, c.toNat < 256

/-- A finite map from trimmed keys, listed in any order. -/
structure Query where
  entries : List (JString × JString)
  nodup : (entries.map Prod.fst).Nodup
  trimmed : ∀ e ∈ entries, trim e.1 = e.1
  latin : ∀ e ∈ entries, IsLatin e.1 ∧ IsLatin e.2

/-- A key and its value. -/
def encodeEntry (upper : Bool) (e : JString × JString) : JString :=
  percentEncode upper e.1 ++ '=' :: percentEncode upper e.2

/-- The path and the map. -/
def encodeUri (upper : Bool) (path : JString) (query : Query) : JString :=
  percentEncode upper path ++ '?' :: ['&'].intercalate (query.entries.map (encodeEntry upper))

/-! ### One text -/

theorem hexDigit_hexDigitChar (upper : Bool) {n : ℕ} (h : n < 16) :
    hexDigit (hexDigitChar upper n) = some n := by
  have hall : ∀ upper : Bool, ∀ n < 16, hexDigit (hexDigitChar upper n) = some n := by decide
  exact hall upper n h

theorem unreserved_hexDigitChar (upper : Bool) {n : ℕ} (h : n < 16) :
    unreserved (hexDigitChar upper n) = true := by
  have hall : ∀ upper : Bool, ∀ n < 16, unreserved (hexDigitChar upper n) = true := by decide
  exact hall upper n h

theorem percentDecoded_char {c : Char} (hplus : c ≠ '+') (hpercent : c ≠ '%') (cs : JString) :
    percentDecoded (c :: cs) = (percentDecoded cs).map (c :: ·) := by
  rw [percentDecoded]
  · exact hplus
  · exact fun a b cs h => absurd h hpercent
  · exact hpercent

/-- An encoded character is decoded. -/
theorem percentDecoded_encodeChar {upper : Bool} {c : Char} (hc : c.toNat < 256) (rest : JString) :
    percentDecoded (encodeChar upper c ++ rest) = (percentDecoded rest).map (c :: ·) := by
  unfold encodeChar
  split_ifs with h
  · refine percentDecoded_char ?_ ?_ rest
    · rintro rfl
      cases h
    · rintro rfl
      cases h
  · have hhigh := hexDigit_hexDigitChar upper (show c.toNat / 16 < 16 by omega)
    have hlow := hexDigit_hexDigitChar upper (show c.toNat % 16 < 16 by omega)
    have hvalue := parseHex_of_hexDigit hhigh hlow
    have hnat : (((16 * (c.toNat / 16) + c.toNat % 16 : ℕ) : ℤ) % 65536).toNat = c.toNat := by omega
    simp only [List.cons_append, List.nil_append, percentDecoded, hvalue, Option.bind_some, hnat,
      Char.ofNat_toNat]

/-- **Decoding undoes encoding.** -/
theorem percentDecoded_percentEncode {upper : Bool} {s : JString} (hs : IsLatin s) :
    percentDecoded (percentEncode upper s) = some s := by
  induction s with
  | nil => rfl
  | cons c s ih =>
    rw [percentEncode, List.flatMap_cons, percentDecoded_encodeChar (hs c List.mem_cons_self),
      ← percentEncode, ih fun d hd => hs d (List.mem_cons_of_mem c hd)]
    rfl

theorem decodePercent_percentEncode {upper : Bool} {s : JString} (hs : IsLatin s) :
    decodePercent (percentEncode upper s) = pure s := by
  rw [decodePercent, percentDecoded_percentEncode hs]

/-- No separator is left in an encoded text. -/
theorem notMem_percentEncode {upper : Bool} {s : JString} (hs : IsLatin s) {c : Char}
    (hc : unreserved c = false) (hpercent : c ≠ '%') : c ∉ percentEncode upper s := by
  intro hmem
  obtain ⟨d, hd, hcd⟩ := List.mem_flatMap.1 hmem
  have hlt := hs d hd
  have hhex : ∀ n < 16, c ≠ hexDigitChar upper n := by
    rintro n hn rfl
    rw [unreserved_hexDigitChar upper hn] at hc
    cases hc
  unfold encodeChar at hcd
  split_ifs at hcd with h
  · rw [List.mem_singleton] at hcd
    rw [hcd, h] at hc
    cases hc
  · simp only [List.mem_cons, List.not_mem_nil, or_false] at hcd
    rcases hcd with hcd | hcd | hcd
    · exact hpercent hcd
    · exact hhex _ (by omega) hcd
    · exact hhex _ (by omega) hcd

/-! ### The parameters -/

/-- A key is found in a list of pairs with different keys wherever its pair is. -/
theorem lookup_eq_some_iff {l : List (JString × JString)} (h : (l.map Prod.fst).Nodup)
    {key value : JString} : l.lookup key = some value ↔ (key, value) ∈ l := by
  induction l with
  | nil => simp
  | cons e l ih =>
    obtain ⟨key', value'⟩ := e
    rw [List.map_cons, List.nodup_cons] at h
    rw [List.lookup_cons, List.mem_cons]
    by_cases hkey : key = key'
    · subst hkey
      have hnot : (key, value) ∉ l := fun hmem => h.1 (List.mem_map.2 ⟨_, hmem, rfl⟩)
      simp [hnot, eq_comm]
    · have hbeq : (key == key') = false := by simpa using hkey
      simp [hbeq, hkey, ih h.2]

/-- The order of the pairs does not matter. -/
theorem lookup_reverse {l : List (JString × JString)} (h : (l.map Prod.fst).Nodup) (key : JString) :
    l.reverse.lookup key = l.lookup key := by
  have hrev : (l.reverse.map Prod.fst).Nodup := by
    rw [List.map_reverse]
    exact List.nodup_reverse.2 h
  refine Option.ext fun value => ?_
  rw [lookup_eq_some_iff hrev, lookup_eq_some_iff h, List.mem_reverse]

/-- The loop takes the pairs one after the other. -/
theorem decodeParms_encodeEntry {upper : Bool} {entries : List (JString × JString)}
    (htrimmed : ∀ e ∈ entries, trim e.1 = e.1)
    (hlatin : ∀ e ∈ entries, IsLatin e.1 ∧ IsLatin e.2) (map : List (JString × JString)) :
    decodeParms (entries.map (encodeEntry upper)) map = pure (entries.reverse ++ map) := by
  induction entries generalizing map with
  | nil => rfl
  | cons e entries ih =>
    obtain ⟨key, value⟩ := e
    obtain ⟨hkey, hvalue⟩ := hlatin _ List.mem_cons_self
    have hsep : (encodeEntry upper (key, value)).idxOf? '=' =
        some (percentEncode upper key).length :=
      indexOf_eq_some_iff.2 ⟨_, _, rfl, notMem_percentEncode hkey (by decide) (by decide), rfl⟩
    have htake : (encodeEntry upper (key, value)).take (percentEncode upper key).length =
        percentEncode upper key := List.take_left
    have hdrop : (encodeEntry upper (key, value)).drop ((percentEncode upper key).length + 1) =
        percentEncode upper value := by
      rw [encodeEntry, List.drop_append]
      simp
    rw [List.map_cons, decodeParms, hsep]
    dsimp only
    rw [htake, hdrop, decodePercent_percentEncode hkey, decodePercent_percentEncode hvalue,
      pure_bind, pure_bind, htrimmed _ List.mem_cons_self,
      ih (fun e he => htrimmed e (List.mem_cons_of_mem _ he))
        fun e he => hlatin e (List.mem_cons_of_mem _ he), List.reverse_cons, List.append_assoc]
    rfl

/-- The tokens of the query are the encoded pairs. -/
theorem tokens_intercalate (upper : Bool) (query : Query) :
    ((['&'].intercalate (query.entries.map (encodeEntry upper))).splitOn '&').filter (· ≠ []) =
      query.entries.map (encodeEntry upper) := by
  have hne : ∀ t ∈ query.entries.map (encodeEntry upper), t ≠ [] := by
    intro t ht
    obtain ⟨e, -, rfl⟩ := List.mem_map.1 ht
    exact List.append_ne_nil_of_right_ne_nil _ (List.cons_ne_nil _ _)
  have hsep : ∀ t ∈ query.entries.map (encodeEntry upper), '&' ∉ t := by
    intro t ht
    obtain ⟨e, he, rfl⟩ := List.mem_map.1 ht
    obtain ⟨hkey, hvalue⟩ := query.latin e he
    rw [encodeEntry, List.mem_append, List.mem_cons, not_or, not_or]
    exact ⟨notMem_percentEncode hkey (by decide) (by decide), by decide,
      notMem_percentEncode hvalue (by decide) (by decide)⟩
  by_cases hnil : query.entries.map (encodeEntry upper) = []
  · rw [hnil]
    rfl
  · rw [List.splitOn_intercalate _ hsep hnil, List.filter_eq_self]
    exact fun t ht => by simpa using hne t ht

/-- **A path and a map are read back from the URI that encodes them.** -/
theorem parseUri_encodeUri (upper : Bool) (path : {s : JString // IsLatin s}) (query : Query) :
    ∃ params, parseUri (encodeUri upper path query) = pure (path.1, params) ∧
      ∀ key, params.lookup key = query.entries.lookup key := by
  refine ⟨query.entries.reverse, ?_, fun key => lookup_reverse query.nodup key⟩
  have hsep : (encodeUri upper path query).idxOf? '?' =
      some (percentEncode upper path.1).length :=
    indexOf_eq_some_iff.2 ⟨_, _, rfl, notMem_percentEncode path.2 (by decide) (by decide), rfl⟩
  have htake : (encodeUri upper path query).take (percentEncode upper path.1).length =
      percentEncode upper path.1 := List.take_left
  have hdrop : (encodeUri upper path query).drop ((percentEncode upper path.1).length + 1) =
      ['&'].intercalate (query.entries.map (encodeEntry upper)) := by
    rw [encodeUri, List.drop_append]
    simp
  rw [parseUri, hsep]
  dsimp only
  rw [htake, hdrop, tokens_intercalate, decodeParms_encodeEntry query.trimmed query.latin,
    decodePercent_percentEncode path.2, pure_bind, pure_bind, List.append_nil]

/-- A map in which a key is empty, another one holds a separator, and a value is empty. -/
def separators : Query where
  entries := [("".toList, "x&y=z".toList), ("k=".toList, "".toList)]
  nodup := by decide
  trimmed := by decide
  latin := by simp [IsLatin]

/-- The URI `%2Fa%20b?=x%26y%3Dz&k%3D=`. -/
theorem parseUri_encodeUri_separators :
    ∃ params, parseUri "%2Fa%20b?=x%26y%3Dz&k%3D=".toList = pure ("/a b".toList, params) ∧
      ∀ key, params.lookup key = separators.entries.lookup key := by
  have hlatin : IsLatin "/a b".toList := by
    simp [IsLatin]
  have hencode : encodeUri true "/a b".toList separators = "%2Fa%20b?=x%26y%3Dz&k%3D=".toList := by
    decide
  rw [← hencode]
  exact parseUri_encodeUri true ⟨"/a b".toList, hlatin⟩ separators

end P2Player.Http
