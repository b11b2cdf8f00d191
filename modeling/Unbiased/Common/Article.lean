/-
# Articles and their processed form

A `ProcessedArticle` is declared before anything fills its signature, and the
engine's array type leaves that memory as it was. Its default value therefore
takes the content of the array as an argument.
-/

import Unbiased.Common.TokensMap

namespace Unbiased

/-- The number of components of a signature. -/
abbrev signatureSize : ℕ := 100

/-- An `array<int32_t, SIGNATURE_SIZE>`. -/
abbrev Signature := Fin signatureSize → Int32

structure ArticleMetaData where
  id : Bytes
  url : Bytes
  title : Bytes
  date : Bytes
  source : Bytes
  authors : List Bytes
  deriving DecidableEq

/-- Metadata with every string and list empty. -/
def ArticleMetaData.fresh : ArticleMetaData := ⟨[], [], [], [], [], []⟩

structure Article where
  text : Bytes
  tokens : List Bytes
  metaData : ArticleMetaData
  deriving DecidableEq

structure ProcessedArticle where
  signature : Signature
  stemIds : List StemId
  /-- From a stem id, widened to `size_t`, to the index of a token. -/
  idsTokensMap : UInt64 → Option ℕ
  entities : List Bytes
  tokensNo : ℕ
  length : UInt64
  unknownTokensNo : Int32
  metaData : ArticleMetaData

namespace ProcessedArticle

/-- A default-initialised processed article over the given array content. -/
def fresh (uninitialised : Signature) : ProcessedArticle where
  signature := uninitialised
  stemIds := []
  idsTokensMap := fun _ => none
  entities := []
  tokensNo := 0
  length := 0
  unknownTokensNo := 0
  metaData := .fresh

/-- Append a stem id and remember the token it was found at. -/
def recordStem (article : ProcessedArticle) (stemId : StemId) (tidx : ℕ) :
    ProcessedArticle :=
  { article with
    stemIds := article.stemIds ++ [stemId]
    idsTokensMap := Function.update article.idsTokensMap stemId.toInt64.toUInt64 (some tidx) }

end ProcessedArticle

end Unbiased
