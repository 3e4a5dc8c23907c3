import ReplyCache.Call.Basic

namespace ReplyCache

namespace Param

def modelName : String := "model"

def fileName : String := "file"

def completion : List String :=
  [modelName, "messages", "prompt", "temperature", "top_p", "n", "stop", "max_tokens",
   "presence_penalty", "frequency_penalty", "logit_bias", "user", "response_format", "seed",
   "tools", "tool_choice", "stream"]

def embedding : List String := [Call.inputName, "encoding_format"]

def transcription : List String := [fileName, "language"]

def rerank : List String :=
  ["top_n", "rank_fields", "return_documents", "max_chunks_per_doc", "documents", "query"]

/-- The parameters that feed the key of every call, in the order in which they do. -/
def feeding : List String := completion ++ embedding ++ transcription ++ rerank

def steering : List String :=
  [Call.metadataName, Call.runtimeName, Call.directivesName, Call.keyName, Call.taskName,
   "api_key", "api_base", "base_url", "api_version", "organization", "custom_llm_provider",
   "timeout", "request_timeout", "num_retries", "max_retries", "fallbacks",
   "context_window_fallback_dict", "headers", "extra_headers", "proxy_url", "mock_response",
   "caching", "no-log", "model_list", "input_cost_per_token", "output_cost_per_token",
   "input_cost_per_second", "output_cost_per_second", "tags"]

/-- A parameter of one provider: of the others, neither feeding nor steering. -/
def isSpecific (name : String) : Bool := !feeding.contains name && !steering.contains name

theorem nodup_feeding : feeding.Nodup := by decide

theorem steering_disjoint_feeding : ∀ n ∈ steering, n ∉ feeding := by decide

end Param

end ReplyCache
