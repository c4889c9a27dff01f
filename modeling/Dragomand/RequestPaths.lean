import Dragomand.Requests

/-!
# Paths of request objects

The path of a request tells the sender and the token it was made of. The
escaped sender holds no slash, so the first slash after the prefix is the
one before the token; and although the escape maps `:` and `.` to one
character, a unique name has both in one place only, apart from its
digits.
-/

namespace Dragomand

/-- A unique name as a bus assigns it, ":1.42". -/
structure UniqueName where
  major : List Char
  minor : List Char
  major_ne : major ≠ []
  minor_ne : minor ≠ []
  major_digits : ∀ c ∈ major, c.isDigit = true
  minor_digits : ∀ c ∈ minor, c.isDigit = true

def UniqueName.text (name : UniqueName) : String :=
  String.ofList (':' :: name.major ++ '.' :: name.minor)

/-- The characters of an element of an object path. -/
def isElementChar (c : Char) : Bool := c.isAlphanum || c == '_'

/-- The sender in the path. -/
def escapeSender (sender : String) : List Char :=
  sender.toList.map fun c => if c.isAlphanum then c else '_'

/-! ## The escaped sender -/

theorem isAlphanum_of_isDigit {c : Char} (h : c.isDigit = true) : c.isAlphanum = true := by
  show (c.isAlpha || c.isDigit) = true
  rw [h, Bool.or_true]

theorem escape_digits {digits : List Char} (h : ∀ c ∈ digits, c.isDigit = true) :
    digits.map (fun c => if c.isAlphanum then c else '_') = digits := by
  conv_rhs => rw [← List.map_id digits]
  refine List.map_congr_left fun c hc => ?_
  rw [if_pos (isAlphanum_of_isDigit (h c hc))]
  rfl

theorem UniqueName.escape (name : UniqueName) :
    escapeSender name.text = '_' :: name.major ++ '_' :: name.minor := by
  rw [escapeSender, UniqueName.text, String.toList_ofList, List.map_append, List.map_cons,
    List.map_cons, escape_digits name.major_digits, escape_digits name.minor_digits]
  rfl

theorem isElementChar_of_isDigit {c : Char} (h : c.isDigit = true) : isElementChar c = true := by
  rw [isElementChar, isAlphanum_of_isDigit h, Bool.true_or]

theorem UniqueName.escape_chars (name : UniqueName) :
    ∀ c ∈ '_' :: name.major ++ '_' :: name.minor, isElementChar c = true := by
  intro c hc
  rcases List.mem_append.mp hc with hc | hc
  · rcases List.mem_cons.mp hc with rfl | hc
    · rfl
    · exact isElementChar_of_isDigit (name.major_digits c hc)
  · rcases List.mem_cons.mp hc with rfl | hc
    · rfl
    · exact isElementChar_of_isDigit (name.minor_digits c hc)

theorem not_mem_digits {digits : List Char} (h : ∀ c ∈ digits, c.isDigit = true) {c : Char}
    (hc : c.isDigit = false) : c ∉ digits := by
  intro hmem
  rw [h c hmem] at hc
  cases hc

/-- The first place of a separator tells what is before it. -/
theorem eq_of_first_split {c : Char} {a b a' b' : List Char} (ha : c ∉ a) (ha' : c ∉ a')
    (h : a ++ c :: b = a' ++ c :: b') : a = a' ∧ b = b' := by
  have hsplit := congrArg (List.splitOn c) h
  rw [List.splitOn_append_cons_self_of_not_mem ha,
    List.splitOn_append_cons_self_of_not_mem ha'] at hsplit
  obtain rfl := (List.cons.inj hsplit).1
  exact ⟨rfl, (List.cons.inj (List.append_cancel_left h)).2⟩

theorem UniqueName.escape_inj {name name' : UniqueName}
    (h : escapeSender name.text = escapeSender name'.text) : name.text = name'.text := by
  rw [name.escape, name'.escape] at h
  have hnot : ∀ name : UniqueName, '_' ∉ name.major := fun name =>
    not_mem_digits name.major_digits (by decide)
  obtain ⟨hmajor, hminor⟩ :=
    eq_of_first_split (hnot name) (hnot name') (List.cons.inj h).2
  rw [UniqueName.text, UniqueName.text, hmajor, hminor]

/-! ## Valid paths -/

theorem validObjectPath_of_elements {elements : List (List Char)} (hne : elements ≠ [])
    (h : ∀ element ∈ elements, element ≠ [] ∧ ∀ c ∈ element, isElementChar c = true) :
    validObjectPath (String.ofList (['/'].intercalate ([] :: elements))) = true := by
  have hslash : ∀ element ∈ [] :: elements, '/' ∉ element := by
    intro element helement hc
    rcases List.mem_cons.mp helement with rfl | helement
    · cases hc
    · have := (h element helement).2 '/' hc
      revert this
      decide
  rw [validObjectPath, String.toList_ofList, List.splitOn_intercalate '/' hslash (List.cons_ne_nil _ _)]
  cases elements with
  | nil => exact absurd rfl hne
  | cons element elements =>
      cases element with
      | nil => exact absurd rfl (h [] List.mem_cons_self).1
      | cons c element =>
          simp only [List.isEmpty_cons, Bool.not_false, Bool.true_and]
          rw [List.all_eq_true]
          intro e he
          rw [Bool.and_eq_true, List.all_eq_true, Bool.not_eq_true', List.isEmpty_eq_false_iff]
          exact h e he

/-! ## The paths -/

theorem valid_token_chars {token : String} (h : valid_token token = true) :
    token.toList ≠ [] ∧ ∀ c ∈ token.toList, isElementChar c = true := by
  rw [valid_token, Bool.and_eq_true, Bool.and_eq_true, decide_eq_true_eq, List.all_eq_true] at h
  refine ⟨fun hnil => h.1.1 ?_, h.2⟩
  exact String.toList_eq_nil_iff.mp hnil

/-- The path of a request, as text. -/
def requestPath (sender token : String) : String :=
  REQUEST_PATH_PREFIX ++ "/" ++ String.ofList (escapeSender sender) ++ "/" ++ token

theorem request_path_eq_ok {name : UniqueName} {token : String} (htoken : valid_token token = true) :
    validObjectPath (requestPath name.text token) = true
      ∧ request_path name.text token = .ok (requestPath name.text token) := by
  have hvalid : validObjectPath (requestPath name.text token) = true := by
    have hpath : requestPath name.text token = String.ofList (['/'].intercalate ([] ::
        ["dev".toList, "l10n_bg".toList, "dragomand".toList, "request".toList,
          escapeSender name.text, token.toList])) := by
      rw [← String.toList_inj]
      simp [requestPath, REQUEST_PATH_PREFIX, List.intercalate, List.intersperse]
    rw [hpath]
    refine validObjectPath_of_elements (List.cons_ne_nil _ _) ?_
    intro element helement
    simp only [List.mem_cons, List.not_mem_nil, or_false] at helement
    rcases helement with rfl | rfl | rfl | rfl | rfl | rfl
    · exact ⟨by decide, List.all_eq_true.mp rfl⟩
    · exact ⟨by decide, List.all_eq_true.mp rfl⟩
    · exact ⟨by decide, List.all_eq_true.mp rfl⟩
    · exact ⟨by decide, List.all_eq_true.mp rfl⟩
    · rw [name.escape]
      refine ⟨List.cons_ne_nil _ _, fun c hc => ?_⟩
      exact name.escape_chars c hc
    · exact valid_token_chars htoken
  refine ⟨hvalid, ?_⟩
  unfold requestPath escapeSender at hvalid ⊢
  unfold request_path
  dsimp only
  rw [if_pos hvalid]

/-- **The paths of requests tell sender and token.** For unique names and valid
tokens there is a path, and equal paths come of the same sender and token. -/
theorem request_paths_apart (name name' : UniqueName) (token token' : String)
    (htoken : valid_token token = true) (htoken' : valid_token token' = true) :
    ∃ path path', request_path name.text token = .ok path ∧ validObjectPath path = true
      ∧ request_path name'.text token' = .ok path' ∧ validObjectPath path' = true
      ∧ (path = path' → name.text = name'.text ∧ token = token') := by
  obtain ⟨hvalid, hok⟩ := @request_path_eq_ok name token htoken
  obtain ⟨hvalid', hok'⟩ := @request_path_eq_ok name' token' htoken'
  refine ⟨_, _, hok, hvalid, hok', hvalid', fun heq => ?_⟩
  have hrest : escapeSender name.text ++ '/' :: token.toList
      = escapeSender name'.text ++ '/' :: token'.toList := by
    rw [← String.toList_inj] at heq
    simpa [requestPath, List.append_assoc] using heq
  have hslash : ∀ name : UniqueName, '/' ∉ escapeSender name.text := by
    intro name hmem
    rw [name.escape] at hmem
    exact absurd (name.escape_chars _ hmem) (by decide)
  obtain ⟨hsender, htokens⟩ :=
    eq_of_first_split (hslash name) (hslash name') hrest
  exact ⟨UniqueName.escape_inj hsender, String.toList_inj.mp htokens⟩

/-- The token of another client's request, tried by a client. -/
theorem request_paths_apart_tried :
    ∃ path path', request_path ":1.42" "job_1" = .ok path ∧ validObjectPath path = true
      ∧ request_path ":1.7" "job_1" = .ok path' ∧ validObjectPath path' = true
      ∧ (path = path' → (":1.42" : String) = ":1.7" ∧ ("job_1" : String) = "job_1") :=
  request_paths_apart
    ⟨['1'], ['4', '2'], by decide, by decide, List.all_eq_true.mp rfl, List.all_eq_true.mp rfl⟩
    ⟨['1'], ['7'], by decide, by decide, List.all_eq_true.mp rfl, List.all_eq_true.mp rfl⟩
    "job_1" "job_1" (by decide) (by decide)

end Dragomand
