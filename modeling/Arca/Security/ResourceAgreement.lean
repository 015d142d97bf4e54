import Arca.Auth.Middleware

/-!
# The resource that is authorised and the one that is served

The middleware names a resource by the segments of the original path as they were
sent. The handler is bound to the segments of the normalised path once they are
decoded.
-/
namespace Arca.Security
open Auth Http List Option Target

section names
variable {raw t : Target}

lemma length_toUtf8_arn_object (b k : Text) : (arn (.object b k)).toUtf8.length =
      arnScheme.toUtf8.length + b.toUtf8.length + 1 + k.toUtf8.length := by
  have slash : (Text.toUtf8 ('/' :: k)).length = 1 + k.toUtf8.length := by
    rw [show Text.toUtf8 ('/' :: k) = 47 :: k.toUtf8 from rfl, length_cons, add_comm]
  simp only [arn, Text.toUtf8_append, length_append, slash]
  omega

lemma eq_of_arn_eq (decoded : raw.decode = some t) (same : arn raw = arn t) : raw = t := by
  cases raw with
  | service => exact some.inj decoded
  | bucket b =>
    obtain ⟨b', -, rfl⟩ := map_eq_some_iff.mp decoded
    rw [append_cancel_left same]
  | object b k =>
    obtain ⟨b', hb, rest⟩ := bind_eq_some_iff.mp decoded
    obtain ⟨k', hk, rfl⟩ := map_eq_some_iff.mp rest
    have lengths := congrArg (fun name => (Text.toUtf8 name).length) same
    simp only [length_toUtf8_arn_object] at lengths
    have shorter := length_decodeParam_le hb
    have := length_decodeParam_le hk
    rw [eq_of_decodeParam_of_length hb (by omega), eq_of_decodeParam_of_length hk (by omega)]

/-- A path decodes to its own segments when it holds no escape. -/
lemma decode_ofPath_self_iff {path : Text} (rooted : path.head? = some '/')
    (bound : ofPath path ≠ .service) :
    (ofPath path).decode = some (ofPath path) ↔ Unescaped path := by
  obtain ⟨x, rfl⟩ : ∃ x, path = '/' :: x := by
    cases path with
    | nil => cases rooted
    | cons c x => exact ⟨x, by rw [some.inj rooted]⟩
  have root : Unescaped ('/' :: x) ↔ Unescaped x := by
    rw [show '/' :: x = [] ++ '/' :: x from rfl, unescaped_append_slash]
    exact and_iff_right unescaped_nil
  rw [root]
  cases target : ofPath ('/' :: x) with
  | service => exact absurd target bound
  | bucket b =>
    simp only [decode, map_eq_some_iff, bucket.injEq, exists_eq_right,
      decodeParam_self_iff]
    obtain ⟨-, rfl | rfl⟩ := path_of_bucket target
    · rfl
    · rw [unescaped_append_slash]
      exact (and_iff_left unescaped_nil).symm
  | object b k =>
    obtain rfl := path_of_object target
    rw [unescaped_append_slash]
    simp only [decode, bind_eq_some_iff, map_eq_some_iff, object.injEq]
    constructor
    · rintro ⟨b', hb, k', hk, rfl, rfl⟩
      exact ⟨decodeParam_self_iff.mp hb, decodeParam_self_iff.mp hk⟩
    · rintro ⟨hb, hk⟩
      exact ⟨b, decodeParam_self_iff.mpr hb, k, decodeParam_self_iff.mpr hk, rfl, rfl⟩

lemma head_arn (bound : t ≠ .service) : (arn t).head? = some 'a' := by
  cases t with
  | service => exact absurd rfl bound
  | bucket b => rfl
  | object b k => rfl

@[simp] lemma count_slash_arnScheme : List.count '/' arnScheme = 0 := by decide

lemma count_slash_arn_le (decoded : raw.decode = some t) :
    (arn raw).count '/' ≤ (arn t).count '/' := by
  cases raw with
  | service =>
    obtain rfl := some.inj decoded
    exact le_rfl
  | bucket b =>
    obtain ⟨b', hb, rfl⟩ := map_eq_some_iff.mp decoded
    have := count_slash_le_of_decodeParam hb
    simp only [arn, count_append]
    omega
  | object b k =>
    obtain ⟨b', hb, rest⟩ := bind_eq_some_iff.mp decoded
    obtain ⟨k', hk, rfl⟩ := map_eq_some_iff.mp rest
    have := count_slash_le_of_decodeParam hb
    have := count_slash_le_of_decodeParam hk
    simp only [arn, count_append, count_cons]
    omega

lemma count_slash_arn_ofPath_le (x : Text) : (arn (ofPath ('/' :: x))).count '/' ≤ x.count '/' := by
  cases target : ofPath ('/' :: x) with
  | service => simp [arn]
  | bucket b =>
    have free := count_eq_zero_of_not_mem (path_of_bucket target).1
    simp only [arn, count_append, count_slash_arnScheme, free]
    omega
  | object b k =>
    obtain rfl := path_of_object target
    simp only [arn, count_append, count_slash_arnScheme]
    omega

lemma count_slash_arn_pathStyle {label x : Text} (nonempty : x ≠ [])
    (bound : ofPath ('/' :: label ++ '/' :: x) ≠ .service) :
    (arn (ofPath ('/' :: label ++ '/' :: x))).count '/' = label.count '/' + 1 + x.count '/' := by
  rw [cons_append] at bound ⊢
  cases target : ofPath ('/' :: (label ++ '/' :: x)) with
  | service => exact absurd target bound
  | bucket b =>
    obtain ⟨free, shape | shape⟩ := path_of_bucket target
    · simp [← shape] at free
    · -- the one slash of such a path is its last character
      have last : (label ++ '/' :: x).count '/' = 1 := by
        rw [shape, count_append, count_eq_zero_of_not_mem free]
        rfl
      have ends : x.getLast? = some '/' := by
        have := congrArg List.getLast? shape
        rwa [getLast?_append_of_ne_nil _ (by simp), getLast?_cons_of_ne_nil nonempty,
          getLast?_concat] at this
      have inside : 0 < x.count '/' := count_pos_iff.mpr (mem_of_getLast? ends)
      simp only [count_append, count_cons_self] at last
      omega
  | object b k =>
    have shape := congrArg (List.count '/') (path_of_object target)
    simp only [count_append, count_cons_self] at shape
    simp only [arn, count_append, count_cons_self, count_slash_arnScheme]
    omega

end names

section served
variable {server : Server} {r : Request} {s : Served}

def addressedPath (domain : Option Text) (r : Request) : Text :=
  match r.virtualHost domain with
  | none => r.uri.path
  | some (label, _) =>
    if Marked label then '/' :: cutPath label else pathStylePath label r.uri.path

lemma decode_addressedPath (served : server.serve r = some s) :
    (ofPath (addressedPath server.domain r)).decode = some s.target := by
  obtain ⟨-, -, -, raw, routed, -, decoded⟩ := serve_eq_some_iff.mp served
  simp only [Server.routed] at routed
  split at routed
  · cases routed
  · have target := ofPath_of_route routed
    have addressed : (((r.virtualHost server.domain).map Prod.snd).getD r.uri).path =
        addressedPath server.domain r := by
      unfold addressedPath
      cases virtual : r.virtualHost server.domain with
      | none => rfl
      | some p => exact (path_of_virtualHost virtual).2
    rw [Request.normalize, ofPath_stripSlash, addressed] at target
    rw [target, decoded]

lemma evaluated_of_serve (served : server.serve r = some s)
    (plain : s.accepted.identity.isRoot = false) :
    s.accepted.evaluated =
      some ⟨determineAction r.method (r.uri.query.getD []) (ofPath r.uri.path),
        arn (ofPath r.uri.path), .allow⟩ := by
  obtain ⟨-, request, accepted, -⟩ := serve_eq_some_iff.mp served
  obtain ⟨cred, -, -, authorized⟩ := authMiddleware_eq_ok_iff.mp accepted
  have check := ((authorize_eq_ok_iff plain).mp authorized).2
  rw [check, request]
  rfl

/-- A path-style request holds no escape; the host label of a virtual-hosted one cuts its path
off and itself decodes to the resource that the path names. -/
def SameResource (domain : Option Text) (r : Request) : Prop :=
  match r.virtualHost domain with
  | none => Unescaped r.uri.path
  | some (label, _) => Marked label ∧
      (ofPath ('/' :: cutPath label)).decode.map arn = some (arn (ofPath r.uri.path))

instance (domain : Option Text) (r : Request) : Decidable (SameResource domain r) :=
  match h : r.virtualHost domain with
  | none => decidable_of_iff (Unescaped r.uri.path) (by simp [SameResource, h])
  | some (label, _) =>
    decidable_of_iff (Marked label ∧ (ofPath ('/' :: cutPath label)).decode.map arn =
      some (arn (ofPath r.uri.path))) (by simp [SameResource, h])

/-- A virtual-hosted request never names its own resource: the bucket is not in the
path that is authorised. -/
lemma arn_ne_of_pathStyle {label path : Text} {t : Target} (rooted : path.head? = some '/')
    (decoded : (ofPath (pathStylePath label path)).decode = some t) (bound : t ≠ .service) :
    arn (ofPath path) ≠ arn t := by
  obtain ⟨x, rfl⟩ : ∃ x, path = '/' :: x := by
    cases path with
    | nil => cases rooted
    | cons c x => exact ⟨x, by rw [some.inj rooted]⟩
  intro same
  by_cases nonempty : x = []
  · -- the root of the host is authorised as the service
    subst nonempty
    have first := congrArg List.head? same
    rw [head_arn bound] at first
    exact absurd first (by decide)
  · have shape : pathStylePath label ('/' :: x) = '/' :: label ++ '/' :: x := by
      simp [pathStylePath, nonempty]
    rw [shape] at decoded
    have served : ofPath ('/' :: label ++ '/' :: x) ≠ .service := by
      intro service
      rw [service] at decoded
      exact bound (some.inj decoded).symm
    have more := count_slash_arn_le decoded
    rw [count_slash_arn_pathStyle nonempty served, ← same] at more
    have fewer := count_slash_arn_ofPath_le x
    omega

/-- The resource a non-root identity was authorised for is the one the handler is
bound to, exactly for the requests that hold no escape and name no virtual host. -/
theorem authorized_resource_iff (served : server.serve r = some s)
    (plain : s.accepted.identity.isRoot = false) (bound : s.target ≠ .service) :
    (∃ action, s.accepted.evaluated = some ⟨action, arn s.target, .allow⟩) ↔
      SameResource server.domain r := by
  have evaluated : (∃ action, s.accepted.evaluated = some ⟨action, arn s.target, .allow⟩) ↔
      arn (ofPath r.uri.path) = arn s.target := by
    rw [evaluated_of_serve served plain]
    simp
  have decoded := decode_addressedPath served
  rw [evaluated]
  unfold addressedPath at decoded
  unfold SameResource
  cases virtual : r.virtualHost server.domain with
  | none =>
    simp only [virtual] at decoded ⊢
    constructor
    · intro same
      have target := eq_of_arn_eq decoded same
      rw [← target] at decoded bound
      exact (decode_ofPath_self_iff r.uri.rooted bound).mp decoded
    · intro unescaped
      have raw : ofPath r.uri.path ≠ .service := by
        intro service
        rw [service] at decoded
        exact bound (some.inj decoded).symm
      rw [(decode_ofPath_self_iff r.uri.rooted raw).mpr unescaped] at decoded
      rw [some.inj decoded]
  | some p =>
    simp only [virtual] at decoded ⊢
    by_cases marked : Marked p.1
    · simp only [marked, if_true] at decoded
      simp only [marked, decoded, map_some, true_and, some.injEq]
      exact eq_comm
    · simp only [marked, if_false] at decoded
      simp only [marked, false_and, iff_false]
      exact arn_ne_of_pathStyle r.uri.rooted decoded bound

end served

def localhost : HeaderName × Text := (header "host" (by decide), "localhost".toList)

def plainKey : Uri := ⟨"/photos/cat".toList, none, none, by decide, by decide, by decide⟩

theorem authorized_resource_plainKey :
    ∃ action, (tenantServed (allowExcept []) (tenantRequest .get plainKey [localhost] [])
        (.object "photos".toList "cat".toList) .getObject
        "arn:aws:s3:::photos/cat".toList).accepted.evaluated =
      some ⟨action, arn (.object "photos".toList "cat".toList), .allow⟩ := by
  have served : (tenantServer none (allowExcept [])).serve (tenantRequest .get plainKey [localhost] []) =
      some (tenantServed (allowExcept []) (tenantRequest .get plainKey [localhost] [])
        (.object "photos".toList "cat".toList) .getObject "arn:aws:s3:::photos/cat".toList) := by
    decide +kernel
  exact (authorized_resource_iff served rfl (by decide)).mpr (by decide +kernel)

def escapedKey : Uri := ⟨"/photos/%73ecret".toList, none, none, by decide, by decide, by decide⟩

def hostedKey : Uri := ⟨"/secret".toList, none, none, by decide, by decide, by decide⟩

def photosHost : HeaderName × Text := (header "host" (by decide), "photos.s3.local".toList)

def secretArn : Text := "arn:aws:s3:::photos/secret".toList

/-- An escape and a virtual host both reach an object that the policies deny. -/
theorem denied_object_served :
    evaluateGrants (allowExcept [secretArn]) Action.getObject.name secretArn = .deny ∧
    (tenantServer none (allowExcept [secretArn])).serve (tenantRequest .get escapedKey [localhost] []) =
      some (tenantServed (allowExcept [secretArn]) (tenantRequest .get escapedKey [localhost] [])
        (.object "photos".toList "secret".toList) .getObject "arn:aws:s3:::photos/%73ecret".toList) ∧
    (tenantServer (some "s3.local".toList) (allowExcept [secretArn])).serve
        (tenantRequest .get hostedKey [photosHost] []) =
      some (tenantServed (allowExcept [secretArn])
        ((tenantRequest .get hostedKey [photosHost] []).normalize (some "s3.local".toList))
        (.object "photos".toList "secret".toList) .listBucket "arn:aws:s3:::secret".toList) := by
  refine ⟨by decide +kernel, by decide +kernel, by decide +kernel⟩

end Arca.Security
